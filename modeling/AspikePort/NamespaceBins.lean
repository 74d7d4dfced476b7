import AspikePort.InfoRoundTrip

/-!
# The bins of every namespace

A namespace is printed with its two settings and the names of its bins. A
reply with one namespace reaches the second split as nested text, one with
more as flat texts; the parts and the maps are the same.
-/

set_option autoImplicit false

namespace AspikePort.NamespaceBins
open AspikePort.CharData AspikePort.InfoRender AspikePort.InfoRoundTrip

section Printing

def PlainPart (c : Char) : Prop := Printable c ∧ c ∉ [',',';',':','=']

instance (c : Char) : Decidable (PlainPart c) := inferInstanceAs (Decidable (_ ∧ _))

abbrev Part := {cs : Chars // ∀ c ∈ cs, PlainPart c}

/-- `Ns:K1=V1,K2=V2` and the names. -/
structure Namespace where
  ns : Part
  k1 : Part
  v1 : Part
  k2 : Part
  v2 : Part
  names : List Part

def printSetting (key value : Part) : Chars := key.1 ++ '='::value.1

def Namespace.parts (n : Namespace) : List Chars :=
  (n.ns.1 ++ ':'::printSetting n.k1 n.v1)::printSetting n.k2 n.v2::n.names.map Subtype.val

def Namespace.print (n : Namespace) : Chars := [','].intercalate n.parts

def printNamespaces (namespaces : List Namespace) (final : Bool) : Chars :=
  [';'].intercalate (namespaces.map Namespace.print) ++ if final then [';'] else []

variable {c : Char}

theorem part_absent (p : Part) (h : c ∈ [',',';',':','=']) : c ∉ p.1 := fun hc => (p.2 c hc).2 h

theorem setting_chars {key value : Part} (h : c ∈ printSetting key value) :
    PlainPart c ∨ c = '=' := by
  rcases List.mem_append.mp h with h | h
  · exact Or.inl (key.2 c h)
  · rcases List.mem_cons.mp h with h | h
    · exact Or.inr h
    · exact Or.inl (value.2 c h)

theorem parts_chars (n : Namespace) {part : Chars} (hpart : part ∈ n.parts) (h : c ∈ part) :
    PlainPart c ∨ c = '=' ∨ c = ':' := by
  rcases List.mem_cons.mp hpart with rfl | hpart
  · rcases List.mem_append.mp h with h | h
    · exact Or.inl (n.ns.2 c h)
    · rcases List.mem_cons.mp h with h | h
      · exact Or.inr (Or.inr h)
      · exact (setting_chars h).imp_right Or.inl
  · rcases List.mem_cons.mp hpart with rfl | hpart
    · exact (setting_chars h).imp_right Or.inl
    · obtain ⟨name,_,rfl⟩ := List.mem_map.mp hpart
      exact Or.inl (name.2 c h)

theorem parts_plain (n : Namespace) {part : Chars} (hpart : part ∈ n.parts)
    (h : c ∈ [',',';']) : c ∉ part := by
  intro hc
  rcases parts_chars n hpart hc with hplain | rfl | rfl
  · exact hplain.2 (List.mem_append_left [':','='] h)
  · exact absurd h (by decide)
  · exact absurd h (by decide)

theorem print_chars (n : Namespace) (h : c ∈ n.print) : Printable c ∧ c ≠ ';' := by
  rcases mem_intercalate h with rfl | ⟨part,hpart,hc⟩
  · decide
  · constructor
    · rcases parts_chars n hpart hc with hplain | rfl | rfl
      · exact hplain.1
      · decide
      · decide
    · rintro rfl
      exact parts_plain n hpart (by decide) hc

theorem namespaces_printable {namespaces : List Namespace} {final : Bool}
    (h : c ∈ printNamespaces namespaces final) : Printable c := by
  rcases List.mem_append.mp h with h | h
  · rcases mem_intercalate h with rfl | ⟨part,hpart,hc⟩
    · decide
    · obtain ⟨n,_,rfl⟩ := List.mem_map.mp hpart
      exact (print_chars n hc).1
  · have hc : c = ';' := by
      cases final
      · exact absurd h List.not_mem_nil
      · exact List.mem_singleton.mp h
    rw [hc]
    decide

theorem comma_printed (n : Namespace) : ',' ∈ n.print := by
  simp [Namespace.print,Namespace.parts,List.intercalate_cons_cons]

end Printing

section Splits

/-- A separator at the end is one empty text more. -/
theorem intercalate_final {α : Type} (sep : α) {parts : List (List α)} (hne : parts ≠ []) :
    [sep].intercalate parts ++ [sep] = [sep].intercalate (parts ++ [[]]) := by
  induction parts with
  | nil => exact absurd rfl hne
  | cons part parts ih =>
    cases parts with
    | nil => simp
    | cons next parts =>
      rw [List.cons_append,List.cons_append,List.intercalate_cons_cons,List.intercalate_cons_cons,
        List.append_assoc,ih (List.cons_ne_nil _ _),List.cons_append]

theorem print_absent (namespaces : List Namespace) :
    ∀ part ∈ namespaces.map Namespace.print ++ [[]], ';' ∉ part := by
  intro part hpart h
  rcases List.mem_append.mp hpart with hpart | hpart
  · obtain ⟨n,_,rfl⟩ := List.mem_map.mp hpart
    exact (print_chars n h).2 rfl
  · rw [List.mem_singleton.mp hpart] at h
    exact absurd h List.not_mem_nil

theorem flat_split (namespaces : List Namespace) (hne : namespaces ≠ []) (final : Bool) :
    (printNamespaces namespaces final).splitOn ';' =
      namespaces.map Namespace.print ++ if final then [[]] else [] := by
  have hparts : namespaces.map Namespace.print ≠ [] := by simpa using hne
  unfold printNamespaces
  cases final with
  | false =>
    simp only [Bool.false_eq_true,if_false,List.append_nil]
    exact List.splitOn_intercalate ';'
      (fun part h => print_absent namespaces part (List.mem_append_left _ h)) hparts
  | true =>
    rw [if_pos rfl,if_pos rfl,intercalate_final ';' hparts]
    exact List.splitOn_intercalate ';' (print_absent namespaces) (by simp)

theorem printed_ne_nil {s : Data} {n : Namespace} (h : s.chars = n.print) : s ≠ .nil := by
  rintro rfl
  have hcomma := comma_printed n
  rw [← h] at hcomma
  exact absurd hcomma List.not_mem_nil

theorem flat_texts (namespaces : List Namespace) (hne : namespaces ≠ []) (final : Bool) :
    (splitAll ';' (ofChars (printNamespaces namespaces final))).filter (· ≠ .nil) =
      namespaces.map (fun n => ofChars n.print) := by
  have hfinal : ((if final then [[]] else []).map ofChars).filter (· ≠ (.nil : Data)) = [] := by
    cases final <;> rfl
  rw [splitAll_ofChars,flat_split _ hne,List.map_append,List.filter_append,hfinal,
    List.append_nil,List.map_map]
  apply List.filter_eq_self.mpr
  intro s hs
  obtain ⟨n,_,rfl⟩ := List.mem_map.mp hs
  exact decide_eq_true (printed_ne_nil (n := n) (chars_ofChars _))

theorem semicolon_absent {first : Namespace} {rest : List Namespace} {final : Bool}
    (h : ';' ∉ printNamespaces (first::rest) final) : rest = [] ∧ final = false := by
  constructor
  · cases rest with
    | nil => rfl
    | cons next rest =>
      apply absurd _ h
      simp [printNamespaces,List.intercalate_cons_cons]
  · cases final with
    | false => rfl
    | true =>
      apply absurd _ h
      simp [printNamespaces]

/-- The texts of the first split: flat, or the only one still nested. -/
theorem first_split (first : Namespace) (rest : List Namespace) (final : Bool) :
    ((splitAll ';' (ofParts [ofChars (printNamespaces (first::rest) final)])).filter
      (· ≠ .nil)).map chars = (first::rest).map Namespace.print := by
  by_cases hsep : ';' ∈ printNamespaces (first::rest) final
  · rw [splitAll_nested (by simpa using hsep),chars_ofParts,List.flatMap_singleton,chars_ofChars,
      flat_texts _ (List.cons_ne_nil _ _),List.map_map]
    simp [Function.comp_def]
  · obtain ⟨rfl,rfl⟩ := semicolon_absent hsep
    rw [splitAll_absent (by simpa using hsep)]
    simp [ofParts,chars,printNamespaces]

/-- The parts of every namespace, in order. -/
theorem second_split (first : Namespace) (rest : List Namespace) (final : Bool) :
    ((splitAll ';' (ofParts [ofChars (printNamespaces (first::rest) final)])).filter
      (· ≠ .nil)).map (splitAll ',') = (first::rest).map (fun n => n.parts.map ofChars) := by
  have hfirst := first_split first rest final
  generalize (splitAll ';' (ofParts [ofChars (printNamespaces (first::rest) final)])).filter
    (· ≠ .nil) = texts at hfirst ⊢
  have hsplit : ∀ s ∈ texts, splitAll ',' s = splitAll ',' (ofChars s.chars) := by
    intro s hs
    have hmem : s.chars ∈ (first::rest).map Namespace.print := by
      rw [← hfirst]
      exact List.mem_map_of_mem hs
    obtain ⟨n,_,hn⟩ := List.mem_map.mp hmem
    apply splitAll_nested
    rw [← hn]
    exact comma_printed n
  have hparts : ∀ n : Namespace, splitAll ',' (ofChars n.print) = n.parts.map ofChars := by
    intro n
    rw [splitAll_ofChars]
    congr 1
    exact List.splitOn_intercalate ',' (fun part h => parts_plain n h (by decide))
      (List.cons_ne_nil _ _)
  calc texts.map (splitAll ',')
      = (texts.map chars).map (fun cs => splitAll ',' (ofChars cs)) := by
        rw [List.map_map]
        exact List.map_congr_left hsplit
    _ = (first::rest).map (fun n => n.parts.map ofChars) := by
        rw [hfirst,List.map_map]
        exact List.map_congr_left (fun n _ => hparts n)

end Splits

section Maps
variable (toFloat : Chars → Option (ℕ × Chars))

/-- The pairs in the order of the source; a later one replaces an earlier of its key. -/
def binMap (n : Namespace) : InfoMap :=
  fromList [(text "ns",.data (ofChars n.ns.1)),
    (ofChars n.k1.1,valueRender toFloat (ofChars n.v1.1)),
    (ofChars n.k2.1,valueRender toFloat (ofChars n.v2.1)),
    (text "names",.data (ofParts (n.names.map (fun name => ofChars name.1))))]

/-- No key of the settings takes the place of the names. -/
theorem binMap_names (n : Namespace) : (binMap toFloat n).lookup (text "names") =
    some (.data (ofParts (n.names.map (fun name => ofChars name.1)))) := by
  rw [binMap,lookup_fromList]
  simp

theorem setting_pair (key value : Part) :
    pair (splitLeading '=' (ofChars (printSetting key value))) =
      some (ofChars key.1,ofChars value.1) := pair_append (part_absent key (by decide))

theorem first_pair (n : Namespace) :
    pair (splitLeading '=' (ofChars (n.ns.1 ++ ':'::printSetting n.k1 n.v1))) =
      some (ofChars (n.ns.1 ++ ':'::n.k1.1),ofChars n.v1.1) := by
  have habsent : '=' ∉ n.ns.1 ++ ':'::n.k1.1 := by
    intro h
    rcases List.mem_append.mp h with h | h
    · exact part_absent n.ns (by decide) h
    · rcases List.mem_cons.mp h with h | h
      · exact absurd h (by decide)
      · exact part_absent n.k1 (by decide) h
  have hshape : n.ns.1 ++ ':'::printSetting n.k1 n.v1 =
      (n.ns.1 ++ ':'::n.k1.1) ++ '='::n.v1.1 := by simp [printSetting]
  rw [hshape]
  exact pair_append habsent

theorem name_pair (n : Namespace) :
    pair (splitLeading ':' (ofChars (n.ns.1 ++ ':'::n.k1.1))) =
      some (ofChars n.ns.1,ofChars n.k1.1) := pair_append (part_absent n.ns (by decide))

/-- The third split finds nothing and leaves the parts as they are. -/
theorem third_split (n : Namespace) :
    splitAll ',' (ofParts (n.parts.map ofChars)) = [ofParts (n.parts.map ofChars)] := by
  apply splitAll_absent
  intro h
  rw [chars_ofParts,List.flatMap_map] at h
  obtain ⟨part,hpart,hc⟩ := List.mem_flatMap.mp h
  rw [chars_ofChars] at hc
  exact parts_plain n hpart (by decide) hc

theorem bin_render (n : Namespace) :
    binRender toFloat (splitAll ',' (ofParts (n.parts.map ofChars))) = some [binMap toFloat n] := by
  rw [third_split,Namespace.parts,List.map_cons,List.map_cons,ofParts,ofParts,binRender]
  simp only [first_pair,name_pair,setting_pair,binRender,Option.bind_eq_bind,Option.bind_some,
    List.map_map]
  rfl

/-- Each namespace gives the list of its one map. -/
theorem bins_render (first : Namespace) (rest : List Namespace) (final : Bool) :
    binsRender toFloat [ofChars (printNamespaces (first::rest) final)] =
      some ((first::rest).map (fun n => [binMap toFloat n])) := by
  unfold binsRender
  simp only [second_split,List.mapM_map]
  have hone : (fun b => binRender toFloat (splitAll ',' (ofParts b))) ∘
      (fun n : Namespace => n.parts.map ofChars) = fun n => pure [binMap toFloat n] :=
    funext (bin_render toFloat)
  rw [hone,List.mapM_pure]
  rfl

/-- Every namespace comes back in order, with all the names of its bins. -/
theorem bins_read_back (name : Printed) (newline final : Bool) (first : Namespace)
    (rest : List Namespace) :
    infoRender toFloat (.ok (printReply name.1 (printNamespaces (first::rest) final) newline))
        "bins" =
      some (.ok (ofChars name.1,
        .mapLists ((first::rest).map (fun n => [binMap toFloat n])))) ∧
    ∀ n ∈ first::rest, (binMap toFloat n).lookup (text "names") =
      some (.data (ofParts (n.names.map (fun name => ofChars name.1)))) := by
  constructor
  · rw [info_reply toFloat "bins" name newline (fun _ => namespaces_printable)]
    simp [itemRender,bins_render]
  · intro n _
    exact binMap_names toFloat n

end Maps

end AspikePort.NamespaceBins
