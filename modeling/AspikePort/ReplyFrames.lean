import AspikePort.AnnouncedTerms
import AspikePort.PortHandlers

/-!
# Frames that hold a reply

A frame is good if its size fits the two bytes for it and the heads begin with
one complete pair. What a writer of the port appends has only heads that are
right in themselves, so a short frame is valid as far as its pair goes.
-/

set_option autoImplicit false

namespace AspikePort.ReplyFrames
open AspikePort.ErlangTerms AspikePort.ExternalTerms AspikePort.EiBuffers AspikePort.PortCalls
open AspikePort.PortHandlers
open AspikePort.KeptTexts (charList)

section Frames

def width (toks : List Tok) : ℕ := (toks.flatMap Tok.bytes).length

/-- The bytes of a pair stand at the start of the frame, and `binary_to_term`
reads them. -/
def HoldsPair (frame : List Tok) : Prop :=
  ∃ pre post a b, frame = pre ++ post ∧ AllValid pre ∧ terms pre = some [.tuple [a,b]]

/-- The size has two bytes, and it counts the version byte. -/
def Framed (frame : List Tok) : Prop := 1+width frame < 2^16

/-- The run came to a `POST`, and one frame has been written since `before`. -/
def Answers (before : List (List Tok)) (r : Except Leave Unit × PortState) : Prop :=
  r.1 = .error .returned ∧
    ∃ frame, r.2.written = before ++ [frame] ∧ HoldsPair frame ∧ Framed frame

@[simp] theorem width_nil : width [] = 0 := rfl

@[simp] theorem width_cons (tok : Tok) (toks : List Tok) :
    width (tok::toks) = tok.body.length+1+width toks := by
  unfold width
  rw [List.flatMap_cons,List.length_append,Tok.bytes,List.length_cons]

@[simp] theorem width_append (xs ys : List Tok) : width (xs ++ ys) = width xs+width ys := by
  unfold width
  rw [List.flatMap_append,List.length_append]

theorem width_flatMap {α : Type} {f : α → List Tok} {size : α → ℕ}
    (h : ∀ x, width (f x) = size x) (xs : List α) : width (xs.flatMap f) = (xs.map size).sum := by
  induction xs with
  | nil => rfl
  | cons x xs ih => rw [List.flatMap_cons,width_append,h,ih,List.map_cons,List.sum_cons]

theorem length_le_width (toks : List Tok) : toks.length ≤ width toks := by
  induction toks with
  | nil => exact le_rfl
  | cons tok toks ih =>
    rw [List.length_cons,width_cons]
    omega

theorem body_lt_width {tok : Tok} {toks : List Tok} (h : tok ∈ toks) :
    tok.body.length < width toks := by
  obtain ⟨xs,ys,rfl⟩ := List.append_of_mem h
  rw [width_append,width_cons]
  omega

end Frames

section Writable

/-- A head that is valid as soon as its sizes are small. -/
def Writable : Tok → Prop
  | .integer value => -2^31 ≤ value ∧ value < 2^31
  | .float bits => bits < 2^64
  | .other _ _ _ => False
  | _ => True

def AllWritable (toks : List Tok) : Prop := ∀ tok ∈ toks, Writable tok

theorem writable_one {tok : Tok} (h : Writable tok) : AllWritable [tok] := by
  intro tok' hmem
  rwa [List.mem_singleton.mp hmem]

theorem AllWritable.append {xs ys : List Tok} (hx : AllWritable xs) (hy : AllWritable ys) :
    AllWritable (xs ++ ys) := by
  intro tok hmem
  rcases List.mem_append.mp hmem with h | h
  · exact hx tok h
  · exact hy tok h

theorem writable_flatMap {α : Type} {f : α → List Tok} (h : ∀ x, AllWritable (f x))
    (xs : List α) : AllWritable (xs.flatMap f) := by
  intro tok hmem
  obtain ⟨x,-,hx⟩ := List.mem_flatMap.mp hmem
  exact h x tok hx

theorem valid_of_small {tok : Tok} (h : Writable tok) (hbody : tok.body.length < 2^16)
    (harity : tok.arity < 2^32) : tok.Valid := by
  cases tok with
  | integer value => exact h
  | big negative digits =>
    rw [Tok.body,List.length_append,List.length_cons] at hbody
    show digits.length < 2^32
    omega
  | float bits => exact h
  | atom name =>
    rw [Tok.body,sized,List.length_append] at hbody
    show (textBytes name).length < 2^16
    omega
  | tuple arity => exact harity
  | string chars =>
    rw [Tok.body,sized,List.length_append] at hbody
    show chars.length < 2^16
    omega
  | list length => exact (Nat.lt_succ_self length).trans harity
  | binary data =>
    rw [Tok.body,sized,List.length_append] at hbody
    show data.length < 2^32
    omega
  | map arity =>
    have hdouble : 2*arity < 2^32 := harity
    show arity < 2^32
    omega
  | other => exact h
  | _ => trivial

/-- What a head announces is there, so a short row announces little. -/
theorem valid_of_short {toks : List Tok} {ts : List Term} (h : AllWritable toks)
    (hshort : width toks < 2^16) (hterms : terms toks = some ts) : AllValid toks := by
  intro tok hmem
  have hbody := body_lt_width hmem
  have harity := (arity_le hterms).2 tok hmem
  have hlength := length_le_width toks
  apply valid_of_small (h tok hmem)
  · omega
  · omega

theorem writable_long (i : ℤ) : AllWritable (eiXEncodeLong i) := by
  unfold eiXEncodeLong
  split_ifs with hsmall hmiddle
  · exact writable_one trivial
  · apply writable_one
    show -2^31 ≤ i ∧ i < 2^31
    omega
  · exact writable_one trivial

theorem writable_string (chars : Bytes) : AllWritable (eiXEncodeString chars) := by
  unfold eiXEncodeString
  split_ifs
  · exact writable_one trivial
  · exact writable_one trivial
  · have hhead : AllWritable [.list chars.length] := writable_one trivial
    have hchars : AllWritable (chars.map Tok.smallInteger) := by
      intro tok hmem
      obtain ⟨ch,-,rfl⟩ := List.mem_map.mp hmem
      trivial
    exact hhead.append (hchars.append (writable_one trivial))

theorem writable_listHeader (n : ℕ) : AllWritable (eiXEncodeListHeader n) := by
  unfold eiXEncodeListHeader
  split_ifs <;> exact writable_one trivial

end Writable

section Replies

/-- What stands behind the header of the reply completes the frame. -/
def Complete (toks : List Tok) : Prop :=
  HoldsPair (eiXEncodeTupleHeader 2 ++ toks) ∧ Framed (eiXEncodeTupleHeader 2 ++ toks)

theorem framed_iff (toks : List Tok) :
    Framed (eiXEncodeTupleHeader 2 ++ toks) ↔ width toks+3 < 2^16 := by
  have hwidth : width (eiXEncodeTupleHeader 2) = 2 := by decide
  unfold Framed
  rw [width_append,hwidth]
  omega

theorem holdsPair_begins {toks : List Tok} (h : HoldsPair (eiXEncodeTupleHeader 2 ++ toks)) :
    Begins toks 2 := by
  obtain ⟨pre,post,a,b,hsplit,-,hterms⟩ := h
  cases pre with
  | nil => cases hterms
  | cons tok pre =>
    obtain ⟨rfl,hrest⟩ := List.cons.inj hsplit
    obtain ⟨ts,vs,heq,hlength,hafter⟩ := terms_tuple_inv hterms
    have hnone : vs = [] := (List.cons.inj heq).2.symm
    rw [hnone,List.append_nil] at hafter
    exact (begins_iff toks 2).mpr ⟨pre,post,ts,hrest,hafter,hlength⟩

theorem begins_holdsPair {toks : List Tok} (h : Begins toks 2) (hwrite : AllWritable toks)
    (hshort : width toks+3 < 2^16) : HoldsPair (eiXEncodeTupleHeader 2 ++ toks) := by
  obtain ⟨pre,post,ts,rfl,hterms,hlength⟩ := (begins_iff toks 2).mp h
  obtain ⟨a,b,rfl⟩ := List.length_eq_two.mp hlength
  rw [width_append] at hshort
  have hpre : AllWritable pre := fun tok hmem => hwrite tok (List.mem_append_left post hmem)
  have hvalid : AllValid pre := valid_of_short hpre (by omega) hterms
  have hhead : AllValid (eiXEncodeTupleHeader 2) := allValid_one (show 2 < 2^32 by decide)
  refine ⟨eiXEncodeTupleHeader 2 ++ pre,post,a,b,(List.append_assoc _ _ _).symm,
    hhead.append hvalid,?_⟩
  show (terms pre).bind (Tok.tuple 2).value = _
  rw [hterms]
  rfl

theorem complete_iff {toks : List Tok} (hwrite : AllWritable toks) :
    Complete toks ↔ Begins toks 2 ∧ width toks+3 < 2^16 := by
  unfold Complete
  rw [framed_iff]
  constructor
  · exact fun h => ⟨holdsPair_begins h.1,h.2⟩
  · exact fun h => ⟨begins_holdsPair h.1 hwrite h.2,h.2⟩

theorem begins_one {toks : List Tok} {t : Term} (h : Writes toks [t]) : Begins toks 1 := by
  have hstep := begins_writes h [] 0
  rw [List.append_nil] at hstep
  exact hstep.mpr (begins_zero [])

/-- A tag and at least one term. -/
theorem complete_tagged {tag : String} {body : List Tok} (hbegins : Begins body 1)
    (hwrite : AllWritable body) : Complete (eiXEncodeAtom tag ++ body) ↔
      width (eiXEncodeAtom tag)+width body+3 < 2^16 := by
  have hatom : AllWritable (eiXEncodeAtom tag) := writable_one trivial
  rw [complete_iff (hatom.append hwrite),width_append]
  exact and_iff_right ((begins_writes (writes_atom tag) body 1).mpr hbegins)

/-- What may stand behind the tag `ok`. -/
def FitsReply (size : ℕ) : Prop := size+7 < 2^16

theorem complete_ok {body : List Tok} {size : ℕ} (hbegins : Begins body 1)
    (hwrite : AllWritable body) (hsize : width body = size) :
    Complete (eiXEncodeAtom "ok" ++ body) ↔ FitsReply size := by
  have hwidth : width (eiXEncodeAtom "ok") = 4 := by decide
  rw [complete_tagged hbegins hwrite,hwidth,hsize]
  unfold FitsReply
  omega

/-- A list of no elements is closed once more. -/
theorem begins_listOut {α : Type} {f : α → List Tok} {g : α → Term}
    (h : ∀ x, Writes (f x) [g x]) (xs : List α) : Begins (listOut f xs) 1 := by
  by_cases hxs : xs = []
  · subst hxs
    exact begins_zero _
  · have hne : xs.map g ≠ [] := fun hnil => hxs (List.map_eq_nil_iff.mp hnil)
    have hlist := writes_listed (writes_flatMap h xs) hne
    rw [List.length_map] at hlist
    exact begins_one hlist

end Replies

section Sizes

def textSize (chars : Bytes) : ℕ :=
  if chars = [] then 1 else if chars.length ≤ 65535 then chars.length+3 else 2*chars.length+6

def bigSize (digits : ℕ) : ℕ := if digits < 256 then digits+3 else digits+6

def longSize (i : ℤ) : ℕ :=
  if 0 ≤ i ∧ i < 256 then 2 else if -2^27 ≤ i ∧ i < 2^27 then 5
  else bigSize (Nat.digits 256 i.natAbs).length

/-- The sizes of the elements with a header and the end of the list. -/
def listSize (sizes : List ℕ) : ℕ := (if sizes = [] then 1 else 5)+sizes.sum+1

theorem width_smalls (chars : Bytes) : width (chars.map Tok.smallInteger) = 2*chars.length := by
  induction chars with
  | nil => rfl
  | cons ch chars ih =>
    rw [List.map_cons,width_cons,ih,List.length_cons,Tok.body,List.length_singleton]
    omega

@[simp] theorem width_string (chars : Bytes) : width (eiXEncodeString chars) = textSize chars := by
  unfold eiXEncodeString textSize
  split_ifs
  · rfl
  · simp [Tok.body,sized]
    omega
  · simp [Tok.body,width_smalls]
    omega

@[simp] theorem width_long (i : ℤ) : width (eiXEncodeLong i) = longSize i := by
  unfold eiXEncodeLong longSize
  split_ifs
  · rfl
  · simp [Tok.body,be32]
  · unfold bigSize
    simp only [width_cons,width_nil,Tok.body,List.length_append,List.length_cons,List.length_map,
      be_length]
    split_ifs <;> omega

@[simp] theorem width_binary (data : Bytes) :
    width (eiXEncodeBinary data) = data.length+5 := by
  simp [eiXEncodeBinary,Tok.body,sized]
  omega

theorem width_listHeader (n : ℕ) :
    width (eiXEncodeListHeader n) = if n = 0 then 1 else 5 := by
  unfold eiXEncodeListHeader
  split_ifs
  · rfl
  · simp [Tok.body]

@[simp] theorem width_emptyList : width eiXEncodeEmptyList = 1 := rfl

theorem width_listOut {α : Type} {f : α → List Tok} {size : α → ℕ}
    (h : ∀ x, width (f x) = size x) (xs : List α) :
    width (listOut f xs) = listSize (xs.map size) := by
  unfold listOut listSize
  rw [width_append,width_append,width_listHeader,width_flatMap h,width_emptyList]
  simp only [List.length_eq_zero_iff,List.map_eq_nil_iff]

theorem writable_listOut {α : Type} {f : α → List Tok} (h : ∀ x, AllWritable (f x))
    (xs : List α) : AllWritable (listOut f xs) :=
  ((writable_listHeader _).append (writable_flatMap h xs)).append (writable_one trivial)

def valueSize : FieldValue → ℕ
  | .text chars => textSize chars
  | .number i => longSize i
  | .flag b => if b then 6 else 7

def fieldSize (field : String × FieldValue) : ℕ := textSize (textBytes field.1)+valueSize field.2

theorem width_field (field : String × FieldValue) : width (fieldOut field) = fieldSize field := by
  unfold fieldOut fieldSize
  rw [width_append,width_string]
  congr 1
  cases field.2 with
  | text chars => exact width_string chars
  | number i => exact width_long i
  | flag b => cases b <;> decide

theorem writable_field (field : String × FieldValue) : AllWritable (fieldOut field) := by
  have hname := writable_string (textBytes field.1)
  unfold fieldOut
  cases field.2 with
  | text chars => exact hname.append (writable_string chars)
  | number i => exact hname.append (writable_long i)
  | flag b => exact hname.append (writable_one trivial)

def valueTerm : FieldValue → Term
  | .text chars => charList (chars.map Fin.val)
  | .number i => .integer i
  | .flag b => .atom (if b then "true" else "false")

/-- The terms that a map of such fields takes. -/
def fieldTerms (field : String × FieldValue) : List Term :=
  [charList ((textBytes field.1).map Fin.val),valueTerm field.2]

theorem writes_field (field : String × FieldValue) : Writes (fieldOut field) (fieldTerms field) := by
  obtain ⟨name,value⟩ := field
  have hname := writes_string (textBytes name)
  cases value with
  | text chars => exact hname.append (writes_string chars)
  | number i => exact hname.append (writes_long i)
  | flag b => exact hname.append (writes_atom _)

theorem begins_fields (fields : List (String × FieldValue)) (post : List Tok) (due : ℕ) :
    Begins (fields.flatMap fieldOut ++ post) (2*fields.length+due) ↔ Begins post due := by
  induction fields with
  | nil => rw [List.length_nil,Nat.mul_zero,Nat.zero_add,List.flatMap_nil,List.nil_append]
  | cons field fields ih =>
    have hdue : 2*(field::fields).length+due =
        (fieldTerms field).length+(2*fields.length+due) := by
      show 2*(fields.length+1)+due = 2+(2*fields.length+due)
      omega
    rw [List.flatMap_cons,List.append_assoc,hdue,begins_append (writes_field field).all,ih]

end Sizes

end AspikePort.ReplyFrames
