import AspikePort.InfoRender

/-!
# Printed descriptions read back

Descriptions are printed as the server prints them: fields `key=value` joined
within a description, descriptions joined by `;`. The renderer takes sets and
configurations back as they were, whatever the number of fields and with `=`
in a value. It does so for an index only when there is one.
-/

set_option autoImplicit false

namespace AspikePort.InfoRoundTrip
open AspikePort.CharData AspikePort.InfoRender

section Printing

def Printable (c : Char) : Prop := ' ' ≤ c ∧ c ≤ '~'

instance (c : Char) : Decidable (Printable c) := inferInstanceAs (Decidable (_ ∧ _))

abbrev Printed := {cs : Chars // ∀ c ∈ cs, Printable c}

structure Field where
  key : Chars
  value : Chars
  key_plain : ∀ c ∈ key, Printable c ∧ c ∉ [':',';','=']
  value_plain : ∀ c ∈ value, Printable c ∧ c ∉ [':',';']

def Field.print (f : Field) : Chars := f.key ++ '='::f.value

def printFields (sep : Char) (fields : List Field) : Chars :=
  [sep].intercalate (fields.map Field.print)

def printDescriptions (descriptions : List (List Field)) : Chars :=
  [';'].intercalate (descriptions.map (printFields ':'))

/-- The name of the item, a tab, the body and perhaps a final newline. -/
def printReply (name body : Chars) (newline : Bool) : Chars :=
  name ++ '\t'::body ++ if newline then ['\n'] else []

variable {c sep : Char}

theorem printable_ne (h : Printable c) : c ≠ '\t' ∧ c ≠ '\n' ∧ c ≠ '\r' := by
  refine ⟨?_,?_,?_⟩ <;>
  · rintro rfl
    exact absurd h (by decide)

theorem print_printable (f : Field) (h : c ∈ f.print) : Printable c := by
  rcases List.mem_append.mp h with h | h
  · exact (f.key_plain c h).1
  · rcases List.mem_cons.mp h with rfl | h
    · decide
    · exact (f.value_plain c h).1

theorem print_plain (f : Field) (hsep : sep ∈ [':',';']) : sep ∉ f.print := by
  intro h
  rcases List.mem_append.mp h with h | h
  · exact (f.key_plain sep h).2 (List.mem_append_left ['='] hsep)
  · rcases List.mem_cons.mp h with rfl | h
    · exact absurd hsep (by decide)
    · exact (f.value_plain sep h).2 hsep

theorem key_plain (f : Field) : '=' ∉ f.key := fun h => (f.key_plain '=' h).2 (by decide)

theorem fields_printable {fields : List Field} (hsep : Printable sep)
    (h : c ∈ printFields sep fields) : Printable c := by
  rcases mem_intercalate h with rfl | ⟨part,hpart,hc⟩
  · exact hsep
  · obtain ⟨f,_,rfl⟩ := List.mem_map.mp hpart
    exact print_printable f hc

theorem fields_plain (fields : List Field) : ';' ∉ printFields ':' fields := by
  intro h
  rcases mem_intercalate h with h | ⟨part,hpart,hc⟩
  · exact absurd h (by decide)
  · obtain ⟨f,_,rfl⟩ := List.mem_map.mp hpart
    exact print_plain f (by decide) hc

theorem descriptions_printable {descriptions : List (List Field)}
    (h : c ∈ printDescriptions descriptions) : Printable c := by
  rcases mem_intercalate h with rfl | ⟨part,hpart,hc⟩
  · decide
  · obtain ⟨fields,_,rfl⟩ := List.mem_map.mp hpart
    exact fields_printable (by decide) hc

end Printing

section Replies

theorem chompReversed_of_ne {c : Char} (cs : Chars) (h : c ≠ '\n') :
    chompReversed (c::cs) = c::cs := by
  unfold chompReversed
  split
  · next heq => exact absurd (List.cons.inj heq).1 h
  · next heq => exact absurd (List.cons.inj heq).1 h
  · rfl

theorem chomp_last {c : Char} (cs : Chars) (hn : c ≠ '\n') (hr : c ≠ '\r') (newline : Bool) :
    chomp (cs ++ [c] ++ if newline then ['\n'] else []) = cs ++ [c] := by
  have hback : chompReversed (c::cs.reverse) = c::cs.reverse := chompReversed_of_ne _ hn
  have hforth : (c::cs.reverse).reverse = cs ++ [c] := by simp
  unfold chomp
  cases newline with
  | false =>
    rw [if_neg (by decide),List.append_nil,List.reverse_append,List.reverse_singleton,
      List.singleton_append,hback,hforth]
  | true =>
    have hskip : chompReversed ('\n'::c::cs.reverse) = chompReversed (c::cs.reverse) := by
      rw [chompReversed]
      intro rest heq
      exact hr (List.cons.inj heq).1
    rw [if_pos rfl,List.reverse_append,List.reverse_append,List.reverse_singleton,
      List.reverse_singleton,List.singleton_append,List.singleton_append,hskip,hback,hforth]

theorem reply_last (name body : Chars) (h : ∀ c ∈ body, Printable c) :
    ∃ init c, name ++ '\t'::body = init ++ [c] ∧ c ≠ '\n' ∧ c ≠ '\r' := by
  induction body using List.reverseRecOn with
  | nil => exact ⟨name,'\t',rfl,by decide,by decide⟩
  | append_singleton body c _ =>
    have hc := printable_ne (h c (List.mem_append_right _ List.mem_cons_self))
    exact ⟨name ++ '\t'::body,c,by simp,hc.2⟩

theorem reply_split (name : Printed) {body : Chars} (newline : Bool)
    (h : ∀ c ∈ body, Printable c) :
    splitAll '\t' (ofChars (chomp (printReply name.1 body newline))) =
      [ofChars name.1,ofChars body] := by
  obtain ⟨init,c,heq,hn,hr⟩ := reply_last name.1 body h
  have hchomp : chomp (printReply name.1 body newline) = name.1 ++ '\t'::body := by
    unfold printReply
    rw [heq]
    exact chomp_last init hn hr newline
  rw [hchomp]
  exact splitAll_pair (fun ht => (printable_ne (name.2 _ ht)).1 rfl)
    (fun ht => (printable_ne (h _ ht)).1 rfl)

variable (toFloat : Chars → Option (ℕ × Chars))

/-- A reply reaches the renderer of its item as one text. -/
theorem info_reply (item : String) (name : Printed) {body : Chars} (newline : Bool)
    (h : ∀ c ∈ body, Printable c) :
    infoRender toFloat (.ok (printReply name.1 body newline)) item =
      (itemRender toFloat item [ofChars body]).map (fun res => .ok (ofChars name.1,res)) := by
  unfold infoRender
  simp only [reply_split name newline h]

end Replies

section Fields
variable (toFloat : Chars → Option (ℕ × Chars))

def Field.entry (f : Field) : Data × InfoValue :=
  (ofChars f.key,valueRender toFloat (ofChars f.value))

/-- The map holds the fields and nothing else; of a repeated key the last value. -/
def Holds (fields : List Field) (m : InfoMap) : Prop :=
  ∀ k, m.lookup k = (fields.reverse.find? (fun f => ofChars f.key = k)).map
    (fun f => valueRender toFloat (ofChars f.value))

theorem entries_hold (fields : List Field) :
    Holds toFloat fields (fromList (fields.map (Field.entry toFloat))) := by
  intro k
  rw [lookup_fromList,← List.map_reverse,List.find?_map,Option.map_map]
  rfl

theorem pair_print (f : Field) :
    pair (splitLeading '=' (ofChars f.print)) = some (ofChars f.key,ofChars f.value) :=
  pair_append (key_plain f)

theorem pairs_print (fields : List Field) :
    renderPairs toFloat ((fields.map (fun f => ofChars f.print)).map (splitLeading '=')) =
      fields.map (Field.entry toFloat) := by
  unfold renderPairs
  rw [List.map_map,List.filterMap_map]
  have hall : fields.filterMap (pair ∘ (splitLeading '=') ∘ fun f => ofChars f.print) =
      fields.map (fun f => (ofChars f.key,ofChars f.value)) := by
    rw [← List.filterMap_eq_map]
    exact List.filterMap_congr (fun f _ => pair_print f)
  rw [hall,List.map_map]
  rfl

/-- A text without fields has no pair in it. -/
theorem pairs_empty {s : Data} (h : s.chars = []) :
    renderPairs toFloat ([s].map (splitLeading '=')) = [] := by
  rw [List.map_singleton,splitLeading_absent (by rw [h]; exact List.not_mem_nil)]
  rfl

theorem pairs_fields {sep : Char} (hsep : sep ∈ [':',';']) (fields : List Field) :
    renderPairs toFloat ((splitAll sep (ofChars (printFields sep fields))).map (splitLeading '=')) =
      fields.map (Field.entry toFloat) := by
  cases fields with
  | nil =>
    rw [printFields,List.map_nil,List.intercalate_nil,splitAll_absent List.not_mem_nil]
    exact pairs_empty toFloat rfl
  | cons f fields =>
    rw [printFields,splitAll_printed Field.print (List.cons_ne_nil _ _)
      (fun g _ => print_plain g hsep)]
    exact pairs_print toFloat (f::fields)

end Fields

section Sets
variable (toFloat : Chars → Option (ℕ × Chars))

def fieldMap (fields : List Field) : InfoMap := fromList (fields.map (Field.entry toFloat))

theorem descriptions_split (first : List Field) (rest : List (List Field)) :
    splitAll ';' (ofChars (printDescriptions (first::rest))) =
      (first::rest).map (fun fields => ofChars (printFields ':' fields)) :=
  splitAll_printed _ (List.cons_ne_nil _ _) (fun fields _ => fields_plain fields)

theorem sets_render (first : List Field) (rest : List (List Field)) :
    setsRender toFloat [ofChars (printDescriptions (first::rest))] =
      [(first::rest).map (fieldMap toFloat)] := by
  unfold setsRender
  rw [List.map_singleton,descriptions_split]
  simp only [setRender,List.map_map]
  congr 1
  apply List.map_congr_left
  intro fields _
  exact congrArg fromList (pairs_fields toFloat (by decide) fields)

theorem maps_hold (descriptions : List (List Field)) :
    List.Forall₂ (Holds toFloat) descriptions (descriptions.map (fieldMap toFloat)) := by
  rw [List.forall₂_map_right_iff,List.forall₂_same]
  intro fields _
  exact entries_hold toFloat fields

/-- The only text of a configuration may come out of the first split still nested. -/
theorem config_pairs (fields : List Field) :
    renderPairs toFloat ((splitAll ';' (ofParts [ofChars (printFields ';' fields)])).map
      (splitLeading '=')) = fields.map (Field.entry toFloat) := by
  by_cases hsep : ';' ∈ printFields ';' fields
  · rw [splitAll_nested (by simpa using hsep)]
    simpa using pairs_fields toFloat (List.mem_pair.mpr (Or.inr rfl)) fields
  · rw [splitAll_absent (by simpa using hsep)]
    cases fields with
    | nil => exact pairs_empty toFloat rfl
    | cons f fields =>
      cases fields with
      | nil =>
        rw [List.map_singleton,printFields,List.map_singleton,List.intercalate_singleton,
          Field.print,splitLeading_single (key_plain f)]
        rfl
      | cons g fields =>
        apply absurd _ hsep
        simp [printFields,List.intercalate_cons_cons]

theorem config_render (fields : List Field) :
    configRender toFloat [ofChars (printFields ';' fields)] = fieldMap toFloat fields :=
  congrArg fromList (config_pairs toFloat fields)

/-- Sets and configurations read back as they were printed. -/
theorem info_reads_back (name : Printed) (newline : Bool) :
    (∀ first rest, ∃ maps,
      infoRender toFloat (.ok (printReply name.1 (printDescriptions (first::rest)) newline)) "sets" =
          some (.ok (ofChars name.1,.mapLists [maps])) ∧
        List.Forall₂ (Holds toFloat) (first::rest) maps) ∧
    ∀ fields, ∃ m,
      infoRender toFloat (.ok (printReply name.1 (printFields ';' fields) newline)) "get-config" =
          some (.ok (ofChars name.1,.map m)) ∧
        Holds toFloat fields m := by
  constructor
  · intro first rest
    refine ⟨(first::rest).map (fieldMap toFloat),?_,maps_hold toFloat _⟩
    rw [info_reply toFloat "sets" name newline (fun _ => descriptions_printable)]
    simp [itemRender,sets_render]
  · intro fields
    refine ⟨fieldMap toFloat fields,?_,entries_hold toFloat fields⟩
    rw [info_reply toFloat "get-config" name newline (fun _ => fields_printable (by decide))]
    simp [itemRender,config_render]

end Sets

section Indexes
variable (toFloat : Chars → Option (ℕ × Chars))

/-- However many indexes the text describes. -/
theorem sindexes_length (s : Data) : (sindexesRender toFloat [s]).length = 1 := rfl

theorem sindexes_render (fields : List Field) :
    sindexesRender toFloat [ofChars (printDescriptions [fields])] = [fieldMap toFloat fields] := by
  unfold sindexesRender
  rw [printDescriptions,List.map_singleton,List.map_singleton,List.intercalate_singleton,
    sindexRender,pairs_fields toFloat (List.mem_cons_self (a := ':'))]
  rfl

theorem info_sindexes (name : Printed) (newline : Bool) (descriptions : List (List Field)) :
    infoRender toFloat (.ok (printReply name.1 (printDescriptions descriptions) newline))
        "sindex-list:" =
      some (.ok (ofChars name.1,.maps
        (sindexesRender toFloat [ofChars (printDescriptions descriptions)]))) := by
  rw [info_reply toFloat "sindex-list:" name newline (fun _ => descriptions_printable)]
  simp [itemRender]

/-- A second index is not read as one. -/
theorem second_index_merged (name : Printed) (newline : Bool) (first : List Field)
    {rest : List (List Field)} (hrest : rest ≠ []) : ¬∃ maps,
      infoRender toFloat (.ok (printReply name.1 (printDescriptions (first::rest)) newline))
          "sindex-list:" = some (.ok (ofChars name.1,.maps maps)) ∧
        List.Forall₂ (Holds toFloat) (first::rest) maps := by
  rintro ⟨maps,hrender,hhold⟩
  rw [info_sindexes] at hrender
  cases hrender
  have hlength := hhold.length_eq
  rw [sindexes_length,List.length_cons] at hlength
  exact hrest (List.eq_nil_of_length_eq_zero (Nat.succ.inj hlength))

/-- Indexes read back as they were printed exactly when there is only one. -/
theorem indexes_read_back_iff (name : Printed) (newline : Bool) (first : List Field)
    (rest : List (List Field)) :
    (∃ maps, infoRender toFloat (.ok (printReply name.1 (printDescriptions (first::rest)) newline))
          "sindex-list:" = some (.ok (ofChars name.1,.maps maps)) ∧
        List.Forall₂ (Holds toFloat) (first::rest) maps) ↔ rest = [] := by
  constructor
  · intro h
    by_contra hrest
    exact second_index_merged toFloat name newline first hrest h
  · rintro rfl
    refine ⟨_,info_sindexes toFloat name newline _,?_⟩
    rw [sindexes_render]
    exact maps_hold toFloat [first]

def namespaceField (c : Char) (h : Printable c ∧ c ∉ [':',';']) : Field where
  key := ['n','s']
  value := [c]
  key_plain := by
    intro d hd
    rcases List.mem_pair.mp hd with rfl | rfl <;> decide
  value_plain := by
    intro d hd
    rw [List.mem_singleton.mp hd]
    exact h

/-- Indexes on the namespaces `a` and `b` come out as one on `a;ns=b`. -/
theorem two_indexes_merged : ¬∀ (toFloat : Chars → Option (ℕ × Chars)) (name : Printed)
    (first : List Field) (rest : List (List Field)), ∃ maps,
      infoRender toFloat (.ok (printReply name.1 (printDescriptions (first::rest)) false))
          "sindex-list:" = some (.ok (ofChars name.1,.maps maps)) ∧
        List.Forall₂ (Holds toFloat) (first::rest) maps := by
  intro hall
  have hone := hall (fun _ => none) ⟨[],by simp⟩ [namespaceField 'a' (by decide)]
    [[namespaceField 'b' (by decide)]]
  exact second_index_merged _ _ false _ (List.cons_ne_nil _ _) hone

end Indexes

end AspikePort.InfoRoundTrip
