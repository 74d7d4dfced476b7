import AspikePort.AnnouncedTerms
import AspikePort.ReadPaths

/-!
# What a caller receives of a record

The caller takes the first term of a reply and does not look behind it. A list
that is closed twice then does harm in every bin but the last, where the second
end takes the place of the first end of the bins.
-/

set_option autoImplicit false

namespace AspikePort.ReceivedRecords
open AspikePort.ErlangTerms AspikePort.ClientValues AspikePort.ExternalTerms
open AspikePort.EiBuffers AspikePort.PortDumps AspikePort.ReadPaths

section Values
variable {c : Client}

/-- A value that is written as an empty list, and closed twice. -/
def BinaryHollow (v : BinContent) : Prop := v = .integers []

def CdtHollow (v : BinContent) : Prop := v = .integers [] ∨ v = .nested []

/-- What the last bin needs of the way a value is written. -/
structure HollowWriter (c : Client) (write : AsVal → Except Fault (List Tok))
    (shown : BinContent → Term → Prop) (fine hollow : BinContent → Prop) : Prop where
  hollow_writes : ∀ v, hollow v → write v.stored = .ok [.nil,.nil] ∧ shown v .nil
  shown_full : ∀ v toks rest t more, ¬hollow v → write v.stored = .ok toks →
    terms (toks ++ rest) = some (t::more) → shown v t → fine v ∧ terms rest = some more

theorem binaryHollow : HollowWriter c (binaryValueOut c) BinContent.Shown (BinaryFine c)
    BinaryHollow where
  hollow_writes := by
    rintro v rfl
    exact ⟨binaryValueOut_integers (c := c) [],rfl⟩
  shown_full := by
    intro v toks rest t more hfull hwrite hterms hshown
    cases v with
    | integer i =>
      cases hwrite
      exact ⟨trivial,((writes_long i).head hterms).2⟩
    | string value => cases hwrite
    | bytes value =>
      cases hwrite
      exact ⟨trivial,((writes_binary value).head hterms).2⟩
    | integers is =>
      have hfine : BinaryFine c (.integers is) := fun hnil => hfull (congrArg _ hnil)
      obtain ⟨toks',u,hwrite',hwrites,-⟩ := binaryWriter.fine_writes _ hfine
      rw [hwrite] at hwrite'
      cases hwrite'
      exact ⟨hfine,(hwrites.head hterms).2⟩
    | nested entries =>
      cases hwrite
      exact printed_inv hterms hshown

theorem nifHollow : HollowWriter c (PortDumps.formatValueOut c) (NifShown c) Agrees CdtHollow where
  hollow_writes := by
    rintro v (rfl | rfl)
    · exact ⟨binaryValueOut_integers (c := c) [],nif_integers [],trivial⟩
    · exact ⟨formatValueOut_nested [],nif_nested c [],Nat.two_pow_pos 31⟩
  shown_full := by
    intro v toks rest t more hfull hwrite hterms hshown
    cases v with
    | nested entries =>
      rw [formatValueOut_nested] at hwrite
      cases hwrite
      have hterm := hshown.1
      rw [nif_nested] at hterm
      cases hterm
      exact nested_full (fun hnil => hfull (.inr (congrArg _ hnil))) hshown.2 hterms
    | integers is =>
      have hshown' := (nifShown_iff (v := .integers is) nofun nofun t).mp hshown
      exact (binaryHollow (c := c)).shown_full (.integers is) toks rest t more (fun h => hfull (.inl h)) hwrite
        hterms hshown'
    | integer i =>
      have hshown' := (nifShown_iff (v := .integer i) nofun nofun t).mp hshown
      exact (binaryHollow (c := c)).shown_full (.integer i) toks rest t more nofun hwrite hterms hshown'
    | bytes value =>
      have hshown' := (nifShown_iff (v := .bytes value) nofun nofun t).mp hshown
      exact (binaryHollow (c := c)).shown_full (.bytes value) toks rest t more nofun hwrite hterms hshown'
    | string value => cases hwrite

end Values

section Dumps
variable {c : Client} {write : AsVal → Except Fault (List Tok)}
variable {shown : BinContent → Term → Prop} {fine hollow : BinContent → Prop}

/-- The first term of the reply is `{ok, List}` with one pair for each bin, in
order, and each pair shows the content of its bin. -/
def Received (shown : BinContent → Term → Prop) (bins : List (Bytes × BinContent))
    (written : Except Fault (List Tok)) : Prop :=
  ∃ toks pairs, written = .ok toks ∧
    FirstTerm (replyBytes toks) (makeTuple2 atomOk (ofList pairs)) ∧
    List.Forall₂ (PairShown shown) bins pairs

/-- All bins are fine but for the last, which may be hollow. -/
def UpToLast (fine hollow : BinContent → Prop) (bins : List (Bytes × BinContent)) : Prop :=
  (∀ b ∈ bins.dropLast, fine b.2) ∧ ∀ b ∈ bins.getLast?, fine b.2 ∨ hollow b.2

theorem dumped_received {bins : List (Bytes × BinContent)} {written : Except Fault (List Tok)}
    (h : Dumped shown bins written) : Received shown bins written := by
  obtain ⟨toks,pairs,hwritten,⟨heads,hvalid,hbytes,hterms⟩,hpairs⟩ := h
  refine ⟨toks,pairs,hwritten,⟨heads,[],hvalid,?_,hterms⟩,hpairs⟩
  rw [List.append_nil]
  exact hbytes

theorem bins_received (hw : ValueWriter c write shown fine)
    (hh : HollowWriter c write shown fine hollow) {bins : List (Bytes × BinContent)}
    {pairs more : List Term} (hpairs : List.Forall₂ (PairShown shown) bins pairs)
    {body rest : List Tok} (hbody : writeEach (binOut write) (bins.map storedBin) = .ok body)
    (hterms : terms (body ++ .nil::rest) = some (pairs ++ .nil::more)) :
    UpToLast fine hollow bins := by
  induction hpairs generalizing body with
  | nil => exact ⟨fun b hb => absurd hb List.not_mem_nil,fun b hb => by cases hb⟩
  | @cons b pair bins pairs hpair hpairs ih =>
    obtain ⟨t,rfl,hshown⟩ := hpair
    obtain ⟨value,later,hvalue,hlater,rfl⟩ := bins_cons hbody
    have hnext : terms (value ++ (later ++ .nil::rest)) = some (t::(pairs ++ .nil::more)) := by
      rw [← List.append_assoc]
      exact pair_inv hterms
    cases hpairs with
    | nil =>
      cases hlater
      refine ⟨fun x hx => absurd hx List.not_mem_nil,fun x hx => ?_⟩
      cases hx
      by_cases hhollow : hollow b.2
      · exact .inr hhollow
      · exact .inl (hh.shown_full b.2 value _ t _ hhollow hvalue hnext hshown).1
    | @cons d pair' bins pairs hpair' hpairs =>
      have hstop : terms (.nil::(later ++ .nil::rest)) ≠ some (pair'::pairs ++ .nil::more) := by
        intro h
        obtain ⟨u,rfl,-⟩ := hpair'
        cases (writes_emptyList.head h).1
      obtain ⟨hfine,hgo⟩ := hw.shown_fine b.2 value _ t _ hvalue hnext hshown hstop
      obtain ⟨hbefore,hlast⟩ := ih hlater hgo
      exact ⟨List.forall_mem_cons.mpr ⟨hfine,hbefore⟩,hlast⟩

theorem writeEach_append {α : Type} {f : α → Except Fault (List Tok)} {xs ys : List α}
    {before later : List Tok} (hx : writeEach f xs = .ok before) (hy : writeEach f ys = .ok later) :
    writeEach f (xs ++ ys) = .ok (before ++ later) := by
  induction xs generalizing before with
  | nil =>
    cases hx
    exact hy
  | cons x xs ih =>
    rw [writeEach] at hx
    cases hfirst : f x with
    | error e =>
      rw [hfirst] at hx
      cases hx
    | ok first =>
      cases hmore : writeEach f xs with
      | error e =>
        rw [hfirst,hmore] at hx
        cases hx
      | ok more =>
        rw [hfirst,hmore] at hx
        cases hx
        rw [List.cons_append,writeEach,hfirst,ih hmore]
        exact congrArg Except.ok (List.append_assoc first more later).symm

/-- The second end of the last bin ends the list of the bins. -/
theorem hollow_received (hw : ValueWriter c write shown fine)
    (hh : HollowWriter c write shown fine hollow) {r : StoredRecord c}
    {bins : List (Bytes × BinContent)} {b : Bytes × BinContent} (hbins : r.bins = bins ++ [b])
    (hfine : ∀ x ∈ bins, fine x.2) (hhollow : hollow b.2) :
    Received shown r.bins (dumpWith c (binOut write) (some r.record)) := by
  obtain ⟨before,pairs,hbefore,hwrites,hpairs⟩ := writes_bins hw bins hfine
  obtain ⟨hwrite,hshown⟩ := hh.hollow_writes b.2 hhollow
  have hlast : writeEach (binOut write) ([b].map storedBin) =
      .ok [.tuple 2,.binary b.1,.nil,.nil] := by
    show (write b.2.stored >>= fun value => pure _) >>= _ = _
    rw [hwrite]
    rfl
  have hbody := writeEach_append hbefore hlast
  rw [← List.map_append,← hbins] at hbody
  have hpair : Writes [.tuple 2,.binary b.1,.nil] [makeTuple2 (.binary b.1) .nil] :=
    ((writes_binary b.1).append writes_emptyList).tuple
  have hrows := hwrites.append hpair
  have hlength : (pairs ++ [makeTuple2 (.binary b.1) .nil]).length = r.bins.length := by
    rw [hbins,List.length_append,List.length_append,hpairs.length_eq]
    rfl
  have hlist := hrows.list
  rw [hlength] at hlist
  have hreply := ((writes_atom "ok").append hlist).tuple
  have hcount : r.bins.length ≠ 0 := by
    rw [hbins,List.length_append]
    exact Nat.succ_ne_zero _
  have hvalid := valid_dump hw hbody
  have hsplit : eiXEncodeTupleHeader 2 ++ .atom "ok"::(eiXEncodeListHeader r.bins.length ++
      (before ++ [.tuple 2,.binary b.1,.nil,.nil]) ++ [.nil]) =
      .tuple 2::(eiXEncodeAtom "ok" ++ .list r.bins.length::(before ++
        [.tuple 2,.binary b.1,.nil] ++ [.nil])) ++ [.nil] := by
    rw [eiXEncodeListHeader,if_neg hcount]
    simp [eiXEncodeTupleHeader,eiXEncodeAtom]
  refine ⟨_,pairs ++ [makeTuple2 (.binary b.1) .nil],dump_of_body hbody,?_,?_⟩
  · unfold replyBytes
    rw [hsplit] at hvalid ⊢
    exact first_of_writes hvalid hreply
  · rw [hbins]
    exact List.rel_append hpairs (.cons ⟨.nil,rfl,hshown⟩ .nil)

theorem bare_received (hw : ValueWriter c write shown fine) {r : StoredRecord c}
    (hbins : r.bins = []) : Received shown r.bins (dumpWith c (binOut write) (some r.record)) := by
  have hbody : writeEach (binOut write) (r.bins.map storedBin) = .ok [] := by
    rw [hbins]
    rfl
  have hvalid := valid_dump hw hbody
  have hreply := ((writes_atom "ok").append writes_emptyList).tuple
  refine ⟨_,[],dump_of_body hbody,?_,?_⟩
  · rw [hbins] at hvalid ⊢
    have hfirst : FirstTerm (131::(Tok.tuple 2::(eiXEncodeAtom "ok" ++ eiXEncodeEmptyList) ++
        [Tok.nil]).flatMap Tok.bytes) (makeTuple2 atomOk .nil) := first_of_writes hvalid hreply
    exact hfirst
  · rw [hbins]
    exact .nil

theorem received_iff (hw : ValueWriter c write shown fine)
    (hh : HollowWriter c write shown fine hollow) (r : StoredRecord c) :
    Received shown r.bins (dumpWith c (binOut write) (some r.record)) ↔
      UpToLast fine hollow r.bins := by
  constructor
  · rintro ⟨toks,pairs,hdump,hfirst,hpairs⟩
    obtain ⟨body,hbody,rfl⟩ := dump_ok hdump
    obtain ⟨k,more,hterms⟩ := first_padded (valid_dump hw hbody) hfirst
    by_cases hbins : r.bins = []
    · rw [hbins]
      exact ⟨fun b hb => absurd hb List.not_mem_nil,fun b hb => by cases hb⟩
    · have hcount : r.bins.length ≠ 0 := fun hz => hbins (List.eq_nil_of_length_eq_zero hz)
      exact bins_received hw hh hpairs hbody (reply_inv hcount hpairs.length_eq.symm hterms)
  · rintro ⟨hbefore,hlast⟩
    rcases List.eq_nil_or_concat r.bins with hnil | ⟨bins,b,hbins⟩
    · exact bare_received hw hnil
    · rw [hbins] at hbefore hlast
      rw [List.concat_eq_append] at hbins hbefore hlast
      rw [List.dropLast_concat] at hbefore
      rcases hlast b List.getLast?_concat with hfine | hhollow
      · have hall : ∀ x ∈ r.bins, fine x.2 := by
          rw [hbins]
          exact List.forall_mem_append.mpr ⟨hbefore,List.forall_mem_singleton.mpr hfine⟩
        have hne : r.bins ≠ [] := by
          rw [hbins]
          exact List.append_ne_nil_of_right_ne_nil bins (List.cons_ne_nil b [])
        exact dumped_received ((dumped_iff hw r).mpr ⟨hne,hall⟩)
      · exact hollow_received hw hh hbins hbefore hhollow

end Dumps

section Records
variable {c : Client}

/-- The caller of the port receives the list of the native call in reverse. -/
def SameReceived (c : Client) (rec : Record) : Prop :=
  ∃ toks pairs, PortDumps.dumpCdtRecords c (some rec) = .ok toks ∧
    FirstTerm (replyBytes toks) (makeTuple2 atomOk (ofList pairs)) ∧
    ValueFormat.dumpCdtRecords c rec = .ok (ofList pairs.reverse)

/-- The caller of `binary_key_get` receives every bin with its content exactly
if no bin holds a text or a map and none but the last is an empty list. The caller of
`cdt_get` receives what the native call returns exactly if no bin holds a text,
none but the last is empty, and every inner map has a value and a time. -/
theorem records_received_iff (c : Client) (r : StoredRecord c)
    (hcounted : ∀ b ∈ r.bins, Counted b.2) :
    (Received BinContent.Shown r.bins (binaryDumpRecords c (some r.record)) ↔
      UpToLast (BinaryFine c) BinaryHollow r.bins) ∧
    (SameReceived c r.record ↔ UpToLast Agrees CdtHollow r.bins) := by
  refine ⟨received_iff binaryWriter binaryHollow r,?_⟩
  rw [← received_iff nifWriter nifHollow r]
  unfold SameReceived Received
  simp only [native_shown r hcounted]
  rfl

/-- The empty list shifts nothing when it stands in the last bin. -/
def sevenAndEmpty : StoredRecord plainClient where
  gen := 1
  ttl := 0
  bins := emptyAndSeven.bins.reverse
  few := emptyAndSeven.bins.length_reverse.symm ▸ emptyAndSeven.few
  sized := fun b hb => emptyAndSeven.sized b (List.mem_reverse.mp hb)

theorem seven_received :
    Received BinContent.Shown sevenAndEmpty.bins
      (binaryDumpRecords plainClient (some sevenAndEmpty.record)) ∧
    SameReceived plainClient sevenAndEmpty.record := by
  have hbins : sevenAndEmpty.bins = [(textBytes "q",.integer 7),(textBytes "p",.integers [])] := rfl
  have hcounted : ∀ b ∈ sevenAndEmpty.bins, Counted b.2 := by
    intro b hb
    rw [hbins] at hb
    rcases List.mem_pair.mp hb with rfl | rfl <;> trivial
  have hlast : ∀ fine hollow : BinContent → Prop, fine (.integer 7) → hollow (.integers []) →
      UpToLast fine hollow sevenAndEmpty.bins := by
    intro fine hollow hfine hhollow
    rw [hbins]
    exact ⟨List.forall_mem_singleton.mpr hfine,fun b hb => by cases hb; exact .inr hhollow⟩
  obtain ⟨hbinary,hcdt⟩ := records_received_iff plainClient sevenAndEmpty hcounted
  exact ⟨hbinary.mpr (hlast _ _ trivial rfl),hcdt.mpr (hlast _ _ trivial (.inl rfl))⟩

end Records

end AspikePort.ReceivedRecords
