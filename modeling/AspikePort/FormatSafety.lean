import AspikePort.ValueFormat

/-!
# Which stored values the decoder can read

The decoder is safe on exactly the values of `Readable`, and on a readable map
its flat answer is a list of key and value pairs exactly when every inner map
has two or three fields of a recognised type.
-/

set_option autoImplicit false

namespace AspikePort.FormatSafety
open AspikePort.ErlangTerms AspikePort.ClientValues AspikePort.FallibleLoops
open AspikePort.ValueFormat

/-- An integer field of an inner map has a text for its key. -/
def FieldReadable (pair : AsVal × AsVal) : Prop :=
  (∃ i, pair.2 = .integer i) → ∃ s, pair.1 = .string s

def EntryReadable (pair : AsVal × AsVal) : Prop :=
  ∀ vmap, pair.2 = .map vmap → ∀ field ∈ vmap, FieldReadable field

def Readable : AsVal → Prop
  | .string _ => False
  | .list xs => ∀ x ∈ xs, ∃ i, x = .integer i
  | .map es => ∀ e ∈ es, EntryReadable e
  | _ => True

theorem integerFromval_succeeds (v : AsVal) :
    Succeeds (integerFromval v) ↔ ∃ i, v = .integer i := by
  cases v <;> simp [integerFromval]

theorem readField_succeeds (f : Fields) (pair : AsVal × AsVal) :
    Succeeds (readField f pair) ↔ FieldReadable pair := by
  obtain ⟨key,value⟩ := pair
  cases value with
  | integer i =>
    cases key with
    | string s => exact ⟨fun _ _ => ⟨s,rfl⟩,fun _ => succeeds_ok (f.setInteger s i)⟩
    | _ => exact ⟨fun h => absurd h (not_succeeds_error _),fun h => nomatch h ⟨i,rfl⟩⟩
  | _ => simp [readField,AsVal.type,AsType.code,FieldReadable]

theorem formatEntry_succeeds (c : Client) (erlList : List Term) (pair : AsVal × AsVal) :
    Succeeds (formatEntry c erlList pair) ↔ EntryReadable pair := by
  obtain ⟨key,value⟩ := pair
  cases value with
  | map vmap =>
    have hfields := foldlM_succeeds readField_succeeds vmap {}
    simp only [formatEntry,succeeds_bind]
    constructor
    · rintro ⟨f,hf,-⟩ m hm
      cases hm
      exact hfields.mp ⟨f,hf⟩
    · intro h
      obtain ⟨f,hf⟩ := hfields.mpr (h vmap rfl)
      exact ⟨f,hf,succeeds_pure _⟩
  | _ => simp [formatEntry,EntryReadable]

theorem formatValueOut_succeeds (c : Client) (val : AsVal) :
    Succeeds (formatValueOut c val) ↔ Readable val := by
  cases val with
  | string s => exact ⟨fun h => absurd h (not_succeeds_error _),False.elim⟩
  | list xs =>
    change Succeeds (xs.mapM integerFromval >>= fun l => pure (ofList (l.map .integer))) ↔ _
    have hxs := mapM_succeeds (f := integerFromval) xs
    simp only [integerFromval_succeeds] at hxs
    rw [succeeds_bind]
    exact ⟨fun ⟨l,hl,_⟩ => hxs.mp ⟨l,hl⟩,
      fun h => let ⟨l,hl⟩ := hxs.mpr h; ⟨l,hl,succeeds_pure _⟩⟩
  | map es =>
    change Succeeds (es.foldlM (formatEntry c) [] >>= fun l => pure (ofList l)) ↔ _
    have hes := foldlM_succeeds (formatEntry_succeeds c) es []
    rw [succeeds_bind]
    exact ⟨fun ⟨l,hl,_⟩ => hes.mp ⟨l,hl⟩,
      fun h => let ⟨l,hl⟩ := hes.mpr h; ⟨l,hl,succeeds_pure _⟩⟩
  | integer i => exact ⟨fun _ => trivial,fun _ => succeeds_pure _⟩
  | bytes b => exact ⟨fun _ => trivial,fun _ => succeeds_pure _⟩
  | _ => exact ⟨fun _ => trivial,fun _ => succeeds_pure _⟩

/-- The decoder reads every part of a value through the variant of its own tag,
and passes its assertions, on the readable values and on no other. -/
theorem formatValueOut_safe_iff (c : Client) (val : AsVal) :
    (∃ t, formatValueOut c val = .ok t) ↔ Readable val := formatValueOut_succeeds c val

/-- A text bin is read as bytes. -/
theorem formatValueOut_unsafe :
    ¬∀ (c : Client) (val : AsVal), ∃ t, formatValueOut c val = .ok t := by
  intro h
  obtain ⟨t,ht⟩ := h plainClient (.string (textBytes "x"))
  cases ht

section Pairs
variable (c : Client)

def recognised (field : AsVal × AsVal) : Bool :=
  match field.2 with
  | .bytes _ | .integer _ | .string _ => true
  | _ => false

def setField (f : Fields) (field : AsVal × AsVal) : Fields :=
  match field with
  | (.string s,.integer i) => f.setInteger s i
  | (_,.integer _) => f
  | (_,value) =>
    if recognised field then
      { f with vnt := .binary (getBinaryFromAsval value), fccount := f.fccount+1 }
    else f

def fieldsOf (vmap : List (AsVal × AsVal)) : Fields := vmap.foldl setField {}

def fieldCount (vmap : List (AsVal × AsVal)) : ℕ := vmap.countP recognised

theorem readField_eq {f : Fields} {field : AsVal × AsVal} (h : FieldReadable field) :
    readField f field = .ok (setField f field) := by
  obtain ⟨key,value⟩ := field
  cases value with
  | integer i =>
    obtain ⟨s,rfl⟩ := h ⟨i,rfl⟩
    rfl
  | _ => cases key <;> rfl

theorem setInteger_fccount (f : Fields) (s : Bytes) (i : ℤ) :
    (f.setInteger s i).fccount = f.fccount+1 := by
  unfold Fields.setInteger
  split_ifs <;> rfl

theorem setField_fccount {f : Fields} {field : AsVal × AsVal} (h : FieldReadable field) :
    (setField f field).fccount = f.fccount+if recognised field then 1 else 0 := by
  obtain ⟨key,value⟩ := field
  cases value with
  | integer i =>
    obtain ⟨s,rfl⟩ := h ⟨i,rfl⟩
    exact setInteger_fccount f s i
  | _ => cases key <;> rfl

theorem fields_fccount (vmap : List (AsVal × AsVal)) (h : ∀ field ∈ vmap, FieldReadable field)
    (f : Fields) : (vmap.foldl setField f).fccount = f.fccount+fieldCount vmap := by
  induction vmap generalizing f with
  | nil => rfl
  | cons field vmap ih =>
    rw [List.foldl_cons,ih (fun x hx => h x (by simp [hx])),setField_fccount (h field (by simp)),
      fieldCount,fieldCount,List.countP_cons,Nat.add_assoc,Nat.add_comm (ite _ _ _)]

/-- What the decoder puts after a key when it puts anything. -/
def decodedTerm : AsVal → Term
  | .map vmap => (fieldsOf vmap).term
  | mapValue => makeString (c.tostring mapValue)

def complete : AsVal → Bool
  | .map vmap => fieldCount vmap = 2 ∨ fieldCount vmap = 3
  | _ => true

def entryTerms (pair : AsVal × AsVal) : List Term :=
  .binary (getBinaryFromAsval pair.1)::if complete pair.2 then [decodedTerm c pair.2] else []

theorem formatEntry_eq {erlList : List Term} {pair : AsVal × AsVal} (h : EntryReadable pair) :
    formatEntry c erlList pair = .ok (erlList ++ entryTerms c pair) := by
  obtain ⟨key,value⟩ := pair
  cases value with
  | map vmap =>
    have hf : vmap.foldlM readField {} = .ok (fieldsOf vmap) :=
      foldlM_eq_ok vmap (fun x hx f => readField_eq (h vmap rfl x hx)) {}
    have hn : (fieldsOf vmap).fccount = fieldCount vmap :=
      (fields_fccount vmap (h vmap rfl) {}).trans (Nat.zero_add _)
    simp only [formatEntry,hf,entryTerms,complete,decodedTerm]
    change Except.ok (if _ then _ else _) = _
    rw [hn]
    by_cases hc : fieldCount vmap = 2 ∨ fieldCount vmap = 3 <;> simp [hc]
  | _ => simp [formatEntry,entryTerms,complete,decodedTerm,pure,Except.pure]

/-- The flat list of a readable map: each key, followed by its value only when
the value is complete. -/
theorem formatValueOut_map {es : List (AsVal × AsVal)} (h : ∀ e ∈ es, EntryReadable e) :
    formatValueOut c (.map es) = .ok (ofList (es.flatMap (entryTerms c))) := by
  have hes : es.foldlM (formatEntry c) [] =
      .ok (es.foldl (fun l e => l ++ entryTerms c e) []) :=
    foldlM_eq_ok es (fun e he l => formatEntry_eq c (h e he)) []
  rw [List.foldl_append_eq_append] at hes
  change (es.foldlM (formatEntry c) [] >>= fun l => pure (ofList l)) = _
  rw [hes]
  rfl

/-- A reader that takes the elements two at a time. -/
def readPairs : List Term → Option (List (Term × Term))
  | [] => some []
  | [_] => none
  | key::value::rest => (readPairs rest).map ((key,value)::·)

theorem readPairs_length {flat : List Term} {pairs : List (Term × Term)}
    (h : readPairs flat = some pairs) : flat.length = 2*pairs.length := by
  induction flat using readPairs.induct generalizing pairs with
  | case1 =>
    cases h
    rfl
  | case2 t => cases h
  | case3 key value rest ih =>
    obtain ⟨ps,hps,rfl⟩ := Option.map_eq_some_iff.mp h
    have := ih hps
    simp only [List.length_cons]
    omega

theorem entries_length_le (es : List (AsVal × AsVal)) :
    (es.flatMap (entryTerms c)).length ≤ 2*es.length := by
  induction es with
  | nil => simp
  | cons e es ih =>
    have he : (entryTerms c e).length ≤ 2 := by
      unfold entryTerms
      split_ifs <;> simp
    simp only [List.flatMap_cons,List.length_append,List.length_cons]
    omega

theorem complete_of_length {es : List (AsVal × AsVal)}
    (h : (es.flatMap (entryTerms c)).length = 2*es.length) : ∀ e ∈ es, complete e.2 := by
  induction es with
  | nil => simp
  | cons e es ih =>
    have hle := entries_length_le c es
    simp only [List.flatMap_cons,List.length_append,List.length_cons] at h
    by_cases he : complete e.2
    · have hlen : (entryTerms c e).length = 2 := by simp [entryTerms,he]
      exact List.forall_mem_cons.mpr ⟨he,ih (by omega)⟩
    · have hlen : (entryTerms c e).length = 1 := by simp [entryTerms,he]
      omega

theorem readPairs_complete {es : List (AsVal × AsVal)} (h : ∀ e ∈ es, complete e.2) :
    readPairs (es.flatMap (entryTerms c)) =
      some (es.map (fun e => (.binary (getBinaryFromAsval e.1),decodedTerm c e.2))) := by
  induction es with
  | nil => rfl
  | cons e es ih =>
    have he := h e (by simp)
    simp [entryTerms,he,readPairs,ih (fun x hx => h x (by simp [hx]))]

/-- Texts for keys, also in the inner maps. -/
def WellTyped (es : List (AsVal × AsVal)) : Prop :=
  ∀ e ∈ es, (∃ k, e.1 = .string k) ∧
    ∀ vmap, e.2 = .map vmap → ∀ field ∈ vmap, ∃ s, field.1 = .string s

theorem WellTyped.readable {es : List (AsVal × AsVal)} (h : WellTyped es) :
    ∀ e ∈ es, EntryReadable e :=
  fun e he vmap hv field hf _ => (h e he).2 vmap hv field hf

end Pairs

section Entries
variable (c : Client)

def content : AsVal → Option Bytes
  | .string s => some s
  | .bytes b => some b
  | _ => none

def number : AsVal → Option ℤ
  | .integer i => some i
  | _ => none

def isText (name : Bytes) : AsVal → Bool
  | .string s => s = name
  | _ => false

/-- What a map has under a name. -/
def under (name : Bytes) (vmap : List (AsVal × AsVal)) : Option AsVal :=
  (vmap.find? (fun field => isText name field.1)).map Prod.snd

def textTerm : Option Bytes → Term
  | some b => .binary b
  | none => atomUndefined

/-- What an inner map has under `value`, `ttl` and `wt`, with `undefined` and 0
for what it lacks. -/
def tripleTerm (vmap : List (AsVal × AsVal)) : Term :=
  makeTuple3 (textTerm ((under valueKey vmap).bind content))
    (.integer (((under ttlKey vmap).bind number).getD 0))
    (.integer (((under wtKey vmap).bind number).getD 0))

/-- The value of an entry: an inner map is its triple, anything else the
client's text. -/
def entryValue : AsVal → Term
  | .map vmap => tripleTerm vmap
  | v => makeString (c.tostring v)

def entryPair (e : AsVal × AsVal) : Term × Term :=
  (.binary ((content e.1).getD []),entryValue c e.2)

def PairsRecovered (es : List (AsVal × AsVal)) : Prop :=
  ∃ flat, formatValueOut c (.map es) = .ok (ofList flat) ∧
    readPairs flat = some (es.map (entryPair c))

def lastContent (vmap : List (AsVal × AsVal)) : Option Bytes :=
  (vmap.filterMap (fun field => content field.2)).getLast?

/-- An integer field whose name begins with these bytes and a zero byte, or is
made of them. -/
def numberUnder (name : Bytes) (field : AsVal × AsVal) : Option ℤ :=
  match field.1 with
  | .string s => if cStr s = name then number field.2 else none
  | _ => none

def lastNumber (name : Bytes) (vmap : List (AsVal × AsVal)) : ℤ :=
  ((vmap.filterMap (numberUnder name)).getLast?).getD 0

/-- An inner map with two or three fields of a recognised type, where the last
text or bytes is the one under `value` and the last integers taken for `ttl`
and `wt` are the ones under these names. -/
structure Recoverable (vmap : List (AsVal × AsVal)) : Prop where
  count : fieldCount vmap = 2 ∨ fieldCount vmap = 3
  value : lastContent vmap = (under valueKey vmap).bind content
  ttl : lastNumber ttlKey vmap = ((under ttlKey vmap).bind number).getD 0
  wt : lastNumber wtKey vmap = ((under wtKey vmap).bind number).getD 0

theorem under_absent {name : Bytes} {vmap : List (AsVal × AsVal)}
    (h : ∀ field ∈ vmap, isText name field.1 = false) : under name vmap = none := by
  unfold under
  rw [List.find?_eq_none.mpr (fun field hf => by simp [h field hf])]
  rfl

theorem under_cons (name : Bytes) (field : AsVal × AsVal) (vmap : List (AsVal × AsVal)) :
    under name (field::vmap) = if isText name field.1 then some field.2 else under name vmap := by
  unfold under
  rw [List.find?_cons]
  cases isText name field.1 <;> rfl

theorem textTerm_inj {a b : Option Bytes} (h : textTerm a = textTerm b) : a = b := by
  cases a with
  | none =>
    cases b with
    | none => rfl
    | some b => cases h
  | some a =>
    cases b with
    | none => cases h
    | some b => exact congrArg some (Term.binary.inj h)

theorem setInteger_eq (f : Fields) (s : Bytes) (i : ℤ) :
    f.setInteger s i = { f with
      ttlsm := if cStr s = ttlKey then i else f.ttlsm
      writetime := if cStr s = wtKey then i else f.writetime
      fccount := f.fccount+1 } := by
  have hne : ttlKey ≠ wtKey := by decide
  unfold Fields.setInteger
  split_ifs with httl hwt
  · exact absurd (httl.symm.trans hwt) hne
  · rfl
  · rfl
  · rfl

/-- What one more field makes of what the decoder has. -/
theorem setField_eq (f : Fields) (field : AsVal × AsVal) (h : ∃ s, field.1 = .string s) :
    (setField f field).vnt = ((content field.2).map .binary).getD f.vnt ∧
    (setField f field).ttlsm = (numberUnder ttlKey field).getD f.ttlsm ∧
    (setField f field).writetime = (numberUnder wtKey field).getD f.writetime := by
  obtain ⟨key,value⟩ := field
  obtain ⟨s,rfl⟩ := h
  cases value with
  | integer i =>
    change (f.setInteger s i).vnt = _ ∧ (f.setInteger s i).ttlsm = _ ∧
      (f.setInteger s i).writetime = _
    rw [setInteger_eq]
    simp only [content,numberUnder,number,Option.map_none,Option.getD_none,true_and]
    constructor <;> split_ifs <;> rfl
  | _ => simp [setField,recognised,content,numberUnder,number,getBinaryFromAsval]

/-- The decoder keeps the last of the fields it takes for the same part. -/
theorem fieldsOf_eq (vmap : List (AsVal × AsVal)) (h : ∀ field ∈ vmap, ∃ s, field.1 = .string s) :
    (fieldsOf vmap).vnt = textTerm (lastContent vmap) ∧
    (fieldsOf vmap).ttlsm = lastNumber ttlKey vmap ∧
    (fieldsOf vmap).writetime = lastNumber wtKey vmap := by
  induction vmap using List.reverseRecOn with
  | nil => exact ⟨rfl,rfl,rfl⟩
  | append_singleton vmap field ih =>
    obtain ⟨hv,ht,hw⟩ := ih (fun x hx => h x (List.mem_append_left _ hx))
    obtain ⟨hv',ht',hw'⟩ := setField_eq (fieldsOf vmap) field (h field (by simp))
    have hfold : fieldsOf (vmap ++ [field]) = setField (fieldsOf vmap) field := by
      simp [fieldsOf,List.foldl_append]
    rw [hfold,hv',ht',hw',hv,ht,hw]
    simp only [lastContent,lastNumber,List.filterMap_append,List.getLast?_append]
    refine ⟨?_,?_,?_⟩
    · cases hc : content field.2 <;> simp [hc,textTerm]
    · cases hn : numberUnder ttlKey field <;> simp [hn]
    · cases hn : numberUnder wtKey field <;> simp [hn]

theorem decoded_eq_iff (e : AsVal × AsVal) (hkey : ∃ k, e.1 = .string k)
    (h : ∀ vmap, e.2 = .map vmap → ∀ field ∈ vmap, ∃ s, field.1 = .string s) :
    complete e.2 ∧ (.binary (getBinaryFromAsval e.1),decodedTerm c e.2) = entryPair c e ↔
      ∀ vmap, e.2 = .map vmap → Recoverable vmap := by
  obtain ⟨key,value⟩ := e
  obtain ⟨k,rfl⟩ := hkey
  cases value with
  | map vmap =>
    obtain ⟨hv,ht,hw⟩ := fieldsOf_eq vmap (h vmap rfl)
    simp only [complete,decodedTerm,Fields.term,hv,ht,hw,entryPair,entryValue,tripleTerm,
      content,getBinaryFromAsval,Option.getD_some,Prod.mk.injEq,true_and,makeTuple3,Term.tuple.injEq,
      List.cons.injEq,Term.integer.injEq,and_true,decide_eq_true_eq,AsVal.map.injEq,forall_eq']
    constructor
    · rintro ⟨hcount,hvalue,httl,hwt⟩
      exact ⟨hcount,textTerm_inj hvalue,httl,hwt⟩
    · intro hr
      exact ⟨hr.count,congrArg textTerm hr.value,hr.ttl,hr.wt⟩
  | _ => simp [complete,decodedTerm,entryPair,entryValue,content,getBinaryFromAsval]

/-- Taking the flat list in pairs gives back the entries of the map, each key
with its own value and in the map's order, exactly when every inner map is
recoverable. -/
theorem pairs_recovered_iff (es : List (AsVal × AsVal)) (h : WellTyped es) :
    PairsRecovered c es ↔ ∀ e ∈ es, ∀ vmap, e.2 = .map vmap → Recoverable vmap := by
  have hflat := formatValueOut_map c h.readable
  have hentries : (∀ e ∈ es, ∀ vmap, e.2 = .map vmap → Recoverable vmap) ↔
      ∀ e ∈ es, complete e.2 ∧
        (.binary (getBinaryFromAsval e.1),decodedTerm c e.2) = entryPair c e :=
    forall₂_congr fun e he => (decoded_eq_iff c e (h e he).1 (h e he).2).symm
  rw [hentries]
  constructor
  · rintro ⟨flat,hf,hp⟩
    rw [hflat,Except.ok.injEq] at hf
    have hlen := readPairs_length hp
    rw [← ofList_injective hf,List.length_map] at hlen
    have hcomplete := complete_of_length c hlen
    rw [← ofList_injective hf,readPairs_complete c hcomplete,Option.some.injEq] at hp
    exact fun e he => ⟨hcomplete e he,List.map_inj_left.mp hp e he⟩
  · intro hc
    refine ⟨_,hflat,?_⟩
    rw [readPairs_complete c (fun e he => (hc e he).1),Option.some.injEq]
    exact List.map_inj_left.mpr (fun e he => (hc e he).2)

/-- What one complete triple leaves under its key. -/
def completeEntry : AsVal × AsVal :=
  (.string [107],.map [(.string ttlKey,.integer 60),(.string valueKey,.bytes [118]),
    (.string wtKey,.integer 5)])

/-- What a data list that ends after its value leaves under its key. -/
def partialEntry : AsVal × AsVal := (.string [107],.map [(.string valueKey,.bytes [118])])

theorem wellTyped_single {k : Bytes} {vmap : List (AsVal × AsVal)}
    (h : ∀ field ∈ vmap, ∃ s, field.1 = .string s) : WellTyped [(.string k,.map vmap)] := by
  intro e he
  rw [List.mem_singleton.mp he]
  refine ⟨⟨k,rfl⟩,fun v hv => ?_⟩
  cases hv
  exact h

theorem complete_pairs_recovered : PairsRecovered plainClient [completeEntry] := by
  refine (pairs_recovered_iff plainClient [completeEntry] (wellTyped_single ?_)).mpr ?_
  · simp
  · intro e he vmap hv
    rw [List.mem_singleton.mp he] at hv
    cases hv
    exact ⟨Or.inr rfl,rfl,rfl,rfl⟩

theorem partial_pairs_lost :
    ¬∀ (c : Client) (es : List (AsVal × AsVal)), WellTyped es → PairsRecovered c es := by
  intro h
  obtain ⟨flat,hflat,hpairs⟩ := h plainClient [partialEntry] (wellTyped_single (by simp))
  have hone : formatValueOut plainClient (.map [partialEntry]) = .ok (ofList [.binary [107]]) := rfl
  rw [hone,Except.ok.injEq] at hflat
  rw [← ofList_injective hflat] at hpairs
  cases hpairs

end Entries

end AspikePort.FormatSafety
