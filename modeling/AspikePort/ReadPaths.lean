import AspikePort.PortDumps
import AspikePort.RecordReads

/-!
# One record over two paths

The native call makes a term of a record and the port writes the bytes of one.
A bin is the same over both paths if what the port writes for it decodes to
the term of the native call, and then the two lists are each other's reverse.
-/

set_option autoImplicit false

namespace AspikePort.ReadPaths
open AspikePort.ErlangTerms AspikePort.ClientValues AspikePort.FallibleLoops
open AspikePort.ExternalTerms AspikePort.EiBuffers AspikePort.PortDumps
open AspikePort.ValueFormat (Fields readField formatEntry dumpWith)
open AspikePort.RecordReads (dumpWith_bins)

section InnerMaps

/-- The fields that the native call reads where the port reads these. -/
def toFields (f : Inner) : Fields :=
  ⟨f.vnt.elim atomUndefined .binary,f.ttlsm,f.writetime,f.fccount⟩

theorem readField_field (f : Inner) (x : InnerField) :
    readField (toFields f) (.string x.name,x.value) = .ok (toFields (f.set x)) := by
  have httl : cStr ttlKey = ttlKey := by decide
  have hwt : cStr wtKey = wtKey := by decide
  have hne : wtKey ≠ ttlKey := by decide
  cases x with
  | text value => rfl
  | bytes value => rfl
  | ttl i =>
    change Except.ok ((toFields f).setInteger ttlKey i) = _
    simp [Fields.setInteger,httl,toFields,Inner.set]
  | wt i =>
    change Except.ok ((toFields f).setInteger wtKey i) = _
    simp [Fields.setInteger,hwt,hne,toFields,Inner.set]

theorem readField_all (m : InnerMap) :
    (m.fields.map (fun f => (AsVal.string f.name,f.value))).foldlM readField {} =
      .ok (toFields m.read) := by
  rw [List.foldlM_map,InnerMap.read]
  have hstart : ({} : Fields) = toFields {} := rfl
  rw [hstart]
  generalize ({} : Inner) = f
  induction m.fields generalizing f with
  | nil => rfl
  | cons x xs ih =>
    rw [List.foldlM_cons,readField_field,List.foldl_cons]
    exact ih (f.set x)

theorem nif_triple (m : InnerMap) : (toFields m.read).term = FormatSafety.tripleTerm m.pairs := by
  rw [m.read_triple,Fields.term,toFields]
  cases m.read.vnt <;> rfl

/-- An inner map with less than two fields is left out, and its key is not. -/
def nifEntry (e : Bytes × InnerMap) : List Term :=
  .binary e.1::if 2 ≤ e.2.fields.length then [(toFields e.2.read).term] else []

theorem formatEntry_entry (c : Client) (ts : List Term) (e : Bytes × InnerMap) :
    formatEntry c ts (.string e.1,e.2.stored) = .ok (ts ++ nifEntry e) := by
  have hcount : (toFields e.2.read).fccount = e.2.fields.length := e.2.read_fccount
  have hfew := e.2.few
  change ((e.2.fields.map (fun f => (AsVal.string f.name,f.value))).foldlM readField {} >>=
    fun f => pure (if f.fccount = 2 ∨ f.fccount = 3 then ts ++ [.binary e.1] ++ [f.term]
      else ts ++ [.binary e.1])) = _
  rw [readField_all]
  change Except.ok (if (toFields e.2.read).fccount = 2 ∨ (toFields e.2.read).fccount = 3 then _
    else _) = _
  rw [hcount,nifEntry]
  by_cases htwo : 2 ≤ e.2.fields.length
  · rw [if_pos (by omega),if_pos htwo]
    simp
  · rw [if_neg (by omega),if_neg htwo]

theorem nif_nested (c : Client) (entries : List (Bytes × InnerMap)) :
    ValueFormat.formatValueOut c (BinContent.nested entries).stored =
      .ok (ofList (entries.flatMap nifEntry)) := by
  have hfold := foldlM_eq_ok entries (fun e _ ts => formatEntry_entry c ts e) []
  change ((entries.map (fun e => (AsVal.string e.1,e.2.stored))).foldlM (formatEntry c) [] >>=
    fun ts => pure (ofList ts)) = _
  rw [List.foldlM_map,hfold,List.foldl_append_eq_append]
  rfl

end InnerMaps

section Values
variable {c : Client}

/-- A map of a size that a record can have. -/
def Counted : BinContent → Prop
  | .nested entries => entries.length < 2^31
  | _ => True

/-- The term that the native call makes of the bin. -/
def NifShown (c : Client) (v : BinContent) (t : Term) : Prop :=
  ValueFormat.formatValueOut c v.stored = .ok t ∧ Counted v

def EntryAgrees (e : Bytes × InnerMap) : Prop :=
  2 ≤ e.2.fields.length ∧ valueKey ∈ e.2.fields.map InnerField.name

/-- No text, nothing empty, and every inner map has a value and a time. -/
def Agrees : BinContent → Prop :=
  BinContent.FineWith fun entries =>
    entries ≠ [] ∧ entries.length < 2^31 ∧ ∀ e ∈ entries, EntryAgrees e

theorem EntryAgrees.fine {e : Bytes × InnerMap} (h : EntryAgrees e) : e.2.Fine := Or.inr h

theorem nifEntry_full {e : Bytes × InnerMap} (h : 2 ≤ e.2.fields.length) :
    nifEntry e = [.binary e.1,(toFields e.2.read).term] := by
  rw [nifEntry,if_pos h]

theorem writes_entry {e : Bytes × InnerMap} (h : EntryAgrees e) :
    Writes (entryToks e) (nifEntry e) := by
  obtain ⟨value,hvalue⟩ := e.2.read_vnt.mp h.2
  have hcount : e.2.read.fccount = 2 ∨ e.2.read.fccount = 3 := by
    have hfew := e.2.few
    have htwo := h.1
    rw [e.2.read_fccount]
    omega
  have hterm : (toFields e.2.read).term = makeTuple3 (.binary value) (.integer e.2.read.ttlsm)
      (.integer e.2.read.writetime) := by
    simp [Fields.term,toFields,hvalue]
  rw [nifEntry_full h.1,hterm]
  exact (writes_binary e.1).append (writes_tuple3 hcount hvalue)

theorem writes_agreeing {entries : List (Bytes × InnerMap)} (h : ∀ e ∈ entries, EntryAgrees e) :
    Writes (entries.flatMap entryToks) (entries.flatMap nifEntry) := by
  induction entries with
  | nil => exact writes_nil
  | cons e entries ih =>
    obtain ⟨he,hentries⟩ := List.forall_mem_cons.mp h
    rw [List.flatMap_cons,List.flatMap_cons]
    exact (writes_entry he).append (ih hentries)

theorem nifEntry_length (e : Bytes × InnerMap) : (nifEntry e).length ≤ 2 := by
  unfold nifEntry
  split_ifs <;> simp

theorem nifEntries_length (entries : List (Bytes × InnerMap)) :
    (entries.flatMap nifEntry).length ≤ entries.length*2 := by
  induction entries with
  | nil => simp
  | cons e entries ih =>
    have he := nifEntry_length e
    rw [List.flatMap_cons,List.length_append,List.length_cons]
    omega

/-- The lengths tell that no map was left out. -/
theorem nifEntries_full {entries : List (Bytes × InnerMap)}
    (h : (entries.flatMap nifEntry).length = entries.length*2) :
    ∀ e ∈ entries, 2 ≤ e.2.fields.length := by
  induction entries with
  | nil => exact fun _ he => absurd he List.not_mem_nil
  | cons e entries ih =>
    have hone := nifEntry_length e
    have hrest := nifEntries_length entries
    rw [List.flatMap_cons,List.length_append,List.length_cons] at h
    refine List.forall_mem_cons.mpr ⟨?_,ih (by omega)⟩
    by_contra hlt
    rw [nifEntry,if_neg hlt] at h hone
    simp only [List.length_singleton] at h
    omega

theorem shown_full {entries : List (Bytes × InnerMap)}
    (h : ∀ e ∈ entries, 2 ≤ e.2.fields.length) :
    ShownEntries entries (entries.flatMap nifEntry) := by
  induction entries with
  | nil => exact .nil
  | cons e entries ih =>
    obtain ⟨he,hentries⟩ := List.forall_mem_cons.mp h
    rw [List.flatMap_cons,nifEntry_full he]
    exact .cons (Or.inr (nif_triple e.2)) (ih hentries)

/-- What the port writes for the map decodes to the term of the native call,
which is only as long if nothing was left out. -/
theorem nested_full {entries : List (Bytes × InnerMap)} {rest : List Tok} {more : List Term}
    (hne : entries ≠ []) (hcounted : entries.length < 2^31)
    (hterms : terms (eiXEncodeListHeader (entries.length*2 % 2^32) ++
      entries.flatMap entryToks ++ eiXEncodeEmptyList ++ rest) =
        some (ofList (entries.flatMap nifEntry)::more)) :
    Agrees (.nested entries) ∧ terms rest = some more := by
  have hcount : entries.length*2 % 2^32 = entries.length*2 := Nat.mod_eq_of_lt (by omega)
  have hlength : entries.length*2 ≠ 0 := by
    have hpos := List.length_pos_iff.mpr hne
    omega
  have hfull : ∀ e ∈ entries, 2 ≤ e.2.fields.length := by
    have hlist := hterms
    rw [hcount,eiXEncodeListHeader,if_neg hlength,List.append_assoc,List.append_assoc] at hlist
    obtain ⟨xs,tail,vs,heq,hxs,-⟩ := terms_list_inv hlist
    obtain ⟨us,hus,-⟩ := ofListTail_eq (List.cons.inj heq).1.symm
    apply nifEntries_full
    have hle := nifEntries_length entries
    rw [hus,List.length_append] at hle ⊢
    omega
  obtain ⟨hfew,hfine,hrest⟩ := entriesMap_full hne (shown_full hfull) hterms
  refine ⟨⟨hne,hfew,fun e he => ⟨hfull e he,?_⟩⟩,hrest⟩
  have htwo := hfull e he
  rcases hfine e he with hnone | hname
  · simp [hnone] at htwo
  · exact hname.2

theorem nested_inv {entries : List (Bytes × InnerMap)} {rest : List Tok} {more : List Term}
    (hcounted : entries.length < 2^31)
    (hterms : terms (eiXEncodeListHeader (entries.length*2 % 2^32) ++
      entries.flatMap entryToks ++ eiXEncodeEmptyList ++ rest) =
        some (ofList (entries.flatMap nifEntry)::more))
    (hstop : terms (.nil::rest) ≠ some more) :
    Agrees (.nested entries) ∧ terms rest = some more := by
  by_cases hne : entries = []
  · rw [hne] at hterms
    exact absurd (writes_emptyList.head hterms).2 hstop
  · exact nested_full hne hcounted hterms

theorem nif_integers (is : List ℤ) :
    ValueFormat.formatValueOut c (BinContent.integers is).stored =
      .ok (ofList (is.map .integer)) := by
  have hread : (is.map AsVal.integer).mapM ValueFormat.integerFromval = .ok is := by
    induction is with
    | nil => rfl
    | cons i is ih =>
      rw [List.map_cons,List.mapM_cons,ih]
      rfl
  change ((is.map AsVal.integer).mapM ValueFormat.integerFromval >>= fun xs =>
    pure (ofList (xs.map .integer))) = _
  rw [hread]
  rfl

/-- Away from maps and texts the native call shows what the port is to show. -/
theorem nifShown_iff {v : BinContent} (hmap : ∀ entries, v ≠ .nested entries)
    (htext : ∀ value, v ≠ .string value) (t : Term) : NifShown c v t ↔ v.Shown t := by
  cases v with
  | integer i =>
    change (Except.ok (Term.integer i) = .ok t ∧ True) ↔ t = .integer i
    simp [eq_comm]
  | string value => exact absurd rfl (htext value)
  | bytes value =>
    change (Except.ok (Term.binary value) = .ok t ∧ True) ↔ t = .binary value
    simp [eq_comm]
  | integers is =>
    unfold NifShown
    rw [nif_integers]
    change (Except.ok (ofList (is.map .integer)) = .ok t ∧ True) ↔ t = ofList (is.map .integer)
    simp [eq_comm]
  | nested entries => exact absurd rfl (hmap entries)

theorem agrees_plain {v : BinContent} (hmap : ∀ entries, v ≠ .nested entries) :
    Agrees v ↔ CdtFine v := by
  cases v with
  | nested entries => exact absurd rfl (hmap entries)
  | _ => exact Iff.rfl

theorem plain_writes {v : BinContent} (hmap : ∀ entries, v ≠ .nested entries)
    (htext : ∀ value, v ≠ .string value) (h : Agrees v) : ∃ toks t,
      PortDumps.formatValueOut c v.stored = .ok toks ∧ Writes toks [t] ∧ NifShown c v t := by
  obtain ⟨toks,t,hwrite,hwrites,hshown⟩ :=
    (cdtWriter (c := c)).fine_writes v ((agrees_plain hmap).mp h)
  exact ⟨toks,t,hwrite,hwrites,(nifShown_iff hmap htext t).mpr hshown⟩

theorem plain_inv {v : BinContent} (hmap : ∀ entries, v ≠ .nested entries)
    (htext : ∀ value, v ≠ .string value) {toks rest : List Tok} {t : Term} {more : List Term}
    (hwrite : PortDumps.formatValueOut c v.stored = .ok toks)
    (hterms : terms (toks ++ rest) = some (t::more)) (hshown : NifShown c v t)
    (hstop : terms (.nil::rest) ≠ some more) : Agrees v ∧ terms rest = some more := by
  rw [agrees_plain hmap]
  exact cdtWriter.shown_fine v toks rest t more hwrite hterms
    ((nifShown_iff hmap htext t).mp hshown) hstop

theorem nifWriter : ValueWriter c (PortDumps.formatValueOut c) (NifShown c) Agrees where
  fine_writes := by
    intro v h
    cases v with
    | nested entries =>
      obtain ⟨hne,hfew,hall⟩ := h
      have hwrites := writes_agreeing hall
      have hlength : (entries.flatMap nifEntry).length = entries.length*2 % 2^32 := by
        rw [(shown_full fun e he => (hall e he).1).length]
        omega
      have hts : entries.flatMap nifEntry ≠ [] := by
        cases entries with
        | nil => exact absurd rfl hne
        | cons e entries => simp [nifEntry]
      have hlisted := writes_listed hwrites hts
      rw [hlength] at hlisted
      exact ⟨_,_,formatValueOut_nested entries,hlisted,nif_nested c entries,hfew⟩
    | string value => exact h.elim
    | integer i => exact plain_writes (v := .integer i) nofun nofun h
    | bytes value => exact plain_writes (v := .bytes value) nofun nofun h
    | integers is => exact plain_writes (v := .integers is) nofun nofun h
  shown_fine := by
    intro v toks rest t more hwrite hterms hshown hstop
    cases v with
    | nested entries =>
      rw [formatValueOut_nested] at hwrite
      cases hwrite
      have hterm := hshown.1
      rw [nif_nested] at hterm
      cases hterm
      exact nested_inv hshown.2 hterms hstop
    | string value => cases hwrite
    | integer i => exact plain_inv (v := .integer i) nofun nofun hwrite hterms hshown hstop
    | bytes value => exact plain_inv (v := .bytes value) nofun nofun hwrite hterms hshown hstop
    | integers is => exact plain_inv (v := .integers is) nofun nofun hwrite hterms hshown hstop
  valid := cdtWriter.valid

end Values

section Records
variable {c : Client}

/-- The port's reply decodes, and to the list of the native call in reverse. -/
def SameRecord (c : Client) (rec : Record) : Prop :=
  ∃ toks pairs, PortDumps.dumpCdtRecords c (some rec) = .ok toks ∧
    BinaryToTerm (replyBytes toks) (makeTuple2 atomOk (ofList pairs)) ∧
    ValueFormat.dumpCdtRecords c rec = .ok (ofList pairs.reverse)

/-- The pair of a bin in the native list. -/
def pairOf (value : Bytes × AsVal → Term) (b : Bytes × BinContent) : Term :=
  makeTuple2 (.binary b.1) (value (storedBin b))

def valueOf (c : Client) (b : Bytes × AsVal) : Term :=
  match ValueFormat.formatValueOut c b.2 with
  | .ok t => t
  | .error _ => .nil

theorem valueOf_ok {b : Bytes × AsVal} {t : Term} (h : ValueFormat.formatValueOut c b.2 = .ok t) :
    valueOf c b = t := by
  simp [valueOf,h]

theorem pairs_shown (bins : List (Bytes × BinContent)) (pairs : List Term)
    (hcounted : ∀ b ∈ bins, Counted b.2) :
    List.Forall₂ (PairShown (NifShown c)) bins pairs ↔
      (∀ b ∈ bins, ValueFormat.formatValueOut c b.2.stored = .ok (valueOf c (storedBin b))) ∧
        pairs = bins.map (pairOf (valueOf c)) := by
  induction bins generalizing pairs with
  | nil => simp
  | cons b bins ih =>
    obtain ⟨hb,hbins⟩ := List.forall_mem_cons.mp hcounted
    constructor
    · intro h
      cases h with
      | cons hpair hrest =>
        obtain ⟨t,rfl,hformat,-⟩ := hpair
        obtain ⟨hall,rfl⟩ := (ih _ hbins).mp hrest
        have hvalue : valueOf c (storedBin b) = t := valueOf_ok hformat
        refine ⟨List.forall_mem_cons.mpr ⟨hvalue ▸ hformat,hall⟩,?_⟩
        simp [pairOf,hvalue]
    · rintro ⟨hall,rfl⟩
      obtain ⟨hformat,hrest⟩ := List.forall_mem_cons.mp hall
      exact .cons ⟨_,rfl,hformat,hb⟩ ((ih _ hbins).mpr ⟨hrest,rfl⟩)

theorem nif_dump {r : StoredRecord c}
    (h : ∀ b ∈ r.bins, ValueFormat.formatValueOut c b.2.stored = .ok (valueOf c (storedBin b))) :
    ValueFormat.dumpCdtRecords c r.record =
      .ok (ofList (r.bins.map (pairOf (valueOf c))).reverse) := by
  have hvalues : ∀ b ∈ r.record.bins, ValueFormat.formatValueOut c b.2 = .ok (valueOf c b) := by
    intro b hb
    obtain ⟨x,hx,rfl⟩ := List.mem_map.mp hb
    exact h x hx
  refine (dumpWith_bins c rfl hvalues).trans ?_
  change Except.ok (ofList ((r.bins.map storedBin).reverse.map _)) = _
  rw [← List.map_reverse,← List.map_reverse,List.map_map]
  rfl

/-- A dump that ends normally has formatted every bin. -/
theorem nif_formatted {r : StoredRecord c} {t : Term}
    (h : ValueFormat.dumpCdtRecords c r.record = .ok t) :
    ∀ b ∈ r.bins, ValueFormat.formatValueOut c b.2.stored = .ok (valueOf c (storedBin b)) := by
  have hreadable : ∀ b ∈ r.record.bins, FormatSafety.Readable b.2 :=
    (RecordReads.dumpWith_succeeds c rfl).mp ⟨t,h⟩
  intro b hb
  obtain ⟨u,hu⟩ := (FormatSafety.formatValueOut_succeeds c _).mpr
    (hreadable (storedBin b) (List.mem_map_of_mem hb))
  have hvalue : valueOf c (storedBin b) = u := valueOf_ok hu
  rw [hvalue]
  exact hu

theorem ofList_reverse_injective {xs ys : List Term}
    (h : ofList xs.reverse = ofList ys.reverse) : xs = ys :=
  List.reverse_injective (ofList_injective h)

/-- The native list is the reverse of these pairs if they show the native terms. -/
theorem native_shown (r : StoredRecord c) (hcounted : ∀ b ∈ r.bins, Counted b.2)
    (pairs : List Term) : ValueFormat.dumpCdtRecords c r.record = .ok (ofList pairs.reverse) ↔
      List.Forall₂ (PairShown (NifShown c)) r.bins pairs := by
  rw [pairs_shown r.bins pairs hcounted]
  constructor
  · intro hnif
    have hall := nif_formatted hnif
    rw [nif_dump hall] at hnif
    exact ⟨hall,(ofList_reverse_injective (Except.ok.inj hnif)).symm⟩
  · rintro ⟨hall,rfl⟩
    exact nif_dump hall

theorem same_dumped (r : StoredRecord c) (hcounted : ∀ b ∈ r.bins, Counted b.2) :
    SameRecord c r.record ↔
      Dumped (NifShown c) r.bins (PortDumps.dumpCdtRecords c (some r.record)) := by
  unfold SameRecord Dumped
  simp only [native_shown r hcounted]

/-- A record is the same over both paths exactly when it has a bin, no bin
holds a text or is empty, and every inner map has a value and a time. -/
theorem records_agree_iff (c : Client) (r : StoredRecord c) (hcounted : ∀ b ∈ r.bins, Counted b.2) :
    SameRecord c r.record ↔ r.bins ≠ [] ∧ ∀ b ∈ r.bins, Agrees b.2 :=
  (same_dumped r hcounted).trans (dumped_iff nifWriter r)

def timedValue : InnerMap where
  fields := [.ttl 60,.bytes [118]]
  once := by decide

def timedRecord : StoredRecord plainClient where
  gen := 1
  ttl := 0
  bins := [(textBytes "p",.nested [([97],timedValue)]),(textBytes "q",.integer 7)]
  few := by decide
  sized := by
    have hp : (BinContent.nested [([97],timedValue)]).Sized := by
      intro e he
      rw [List.mem_singleton] at he
      subst he
      refine ⟨by decide,fun f hf => ?_⟩
      rcases List.mem_pair.mp hf with rfl | rfl
      · exact ⟨by decide,by decide⟩
      · exact Nat.lt_of_lt_of_le Nat.one_lt_two (by decide)
    have hq : (BinContent.integer 7).Sized := ⟨by decide,by decide⟩
    have hfirst : SizedBin plainClient (textBytes "p",.nested [([97],timedValue)]) :=
      ⟨by decide,hp,by decide⟩
    have hsecond : SizedBin plainClient (textBytes "q",.integer 7) := ⟨by decide,hq,by decide⟩
    intro b hb
    rcases List.mem_pair.mp hb with rfl | rfl
    · exact hfirst
    · exact hsecond

theorem timed_record_agrees : SameRecord plainClient timedRecord.record := by
  have hcounted : ∀ b ∈ timedRecord.bins, Counted b.2 := by
    intro b hb
    rcases List.mem_pair.mp hb with rfl | rfl
    · exact Nat.lt_of_lt_of_le Nat.one_lt_two (by decide)
    · trivial
  refine (records_agree_iff plainClient timedRecord hcounted).mpr ⟨List.cons_ne_nil _ _,?_⟩
  intro b hb
  rcases List.mem_pair.mp hb with rfl | rfl
  · refine ⟨List.cons_ne_nil _ _,Nat.lt_of_lt_of_le Nat.one_lt_two (by decide),fun e he => ?_⟩
    rw [List.mem_singleton] at he
    subst he
    exact ⟨le_refl 2,by decide⟩
  · trivial

end Records

end AspikePort.ReadPaths
