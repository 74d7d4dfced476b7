import Mathlib.Algebra.Order.BigOperators.Group.List
import AspikePort.FallibleLoops
import AspikePort.ReplyFrames

/-!
# The shape of a dumped record

Whether a dump can be written, how long it gets and whether its list is closed
is read off the values of the bins. An empty list or map is one term too many,
and an inner map without a value takes one term from what follows it.
-/

set_option autoImplicit false

namespace AspikePort.RecordShapes
open AspikePort.FallibleLoops AspikePort.ErlangTerms AspikePort.ClientValues
open AspikePort.ExternalTerms
open AspikePort.EiBuffers AspikePort.PortDumps AspikePort.PortHandlers AspikePort.ReplyFrames

section Shapes

/-- What a dump makes of a value. -/
inductive Shape where
  | long (i : ℤ)
  | binary (data : Bytes)
  | longs (is : List ℤ)
  | text (chars : Bytes)
  | entries (es : List (Bytes × Inner))

def integerOf : AsVal → Option ℤ
  | .integer i => some i
  | _ => none

/-- The printed value, and an integer as it is. -/
def textShape (c : Client) : AsVal → Option Shape
  | .integer i => some (.long i)
  | val => some (.text (textBytes (c.tostring val)))

def binaryShape (c : Client) : AsVal → Option Shape
  | .integer i => some (.long i)
  -- the bytes of a string are looked for in the wrong place
  | .string _ => none
  | .bytes data => some (.binary data)
  | .list xs => (xs.mapM integerOf).map .longs
  | val => some (.text (textBytes (c.tostring val)))

/-- A field of another type does not count. -/
def takeField (f : Inner) : AsVal × AsVal → Option Inner
  | (_,.bytes value) => some { f with vnt := some value, fccount := f.fccount+1 }
  | (_,.string value) => some { f with vnt := some value, fccount := f.fccount+1 }
  | (.string smkey,.integer i) => some (f.setInteger smkey i)
  | (_,.integer _) => none
  | _ => some f

def entryShape : AsVal × AsVal → Option (Bytes × Inner)
  | (.string key,.map fields) => (fields.foldlM takeField {}).map (Prod.mk key)
  | _ => none

def cdtShape (c : Client) : AsVal → Option Shape
  | .map es => (es.mapM entryShape).map .entries
  | val => binaryShape c val

def binShapes (shape : AsVal → Option Shape) (bins : List (Bytes × AsVal)) :
    Option (List (Bytes × Shape)) :=
  bins.mapM (fun b => (shape b.2).map (Prod.mk b.1))

end Shapes

section Sizes

def headerSize (n : ℕ) : ℕ := if n = 0 then 1 else 5

/-- A tuple of three, or the atom `undefined`. -/
def innerSize (f : Inner) : ℕ :=
  if f.fccount = 2 ∨ f.fccount = 3 then
    2+f.vnt.elim 0 (·.length+5)+longSize f.ttlsm+longSize f.writetime
  else 11

def entrySize (e : Bytes × Inner) : ℕ := e.1.length+5+innerSize e.2

def Shape.size : Shape → ℕ
  | .long i => longSize i
  | .binary data => data.length+5
  | .longs is => listSize (is.map longSize)
  | .text chars => textSize chars
  | .entries es => headerSize (es.length*2 % 2^32)+(es.map entrySize).sum+1

/-- A pair for each bin, in a list whose length has 16 bits. -/
def binsSize (nameSize : Bytes → ℕ) (bins : List (Bytes × Shape)) : ℕ :=
  headerSize (bins.length % 2^16)+
    (bins.map (fun b => 2+nameSize b.1+b.2.size)).sum+1

end Sizes

section Due

/-- Three terms are announced and two are written. -/
def Missing (f : Inner) : Bool := (f.fccount = 2 || f.fccount = 3) && f.vnt.isNone

/-- How many terms are due behind the value, if that many were due besides it. -/
def Shape.due (k : ℕ) : Shape → ℕ
  | .longs [] => k-1
  | .entries [] => k-1
  | .entries es => k+es.countP (Missing ·.2)
  | _ => k

/-- Nothing is due at some point, the end of the list of bins at the latest. -/
def Closes : ℕ → List (Bytes × Shape) → Prop
  | 0, _ => True
  | k+1, [] => k = 0
  | k+1, b::bins => Closes (b.2.due k) bins

/-- A record that a dump writes out as one term that fits a frame. -/
def RecordFine (c : Client) (nameSize : Bytes → ℕ) (shape : AsVal → Option Shape) :
    Option Record → Prop
  | none => True
  | some pRec => match pRec.key with
    | some key => FitsReply (textSize (textBytes (c.tostring key)))
    | none => ∃ bins, binShapes shape pRec.bins = some bins ∧ FitsReply (binsSize nameSize bins) ∧
        Closes (bins.length+1) bins

end Due

section Writers

def entryWritten (e : Bytes × Inner) : List Tok := eiXEncodeBinary e.1 ++ e.2.toks

def Shape.toks : Shape → List Tok
  | .long i => eiXEncodeLong i
  | .binary data => eiXEncodeBinary data
  | .longs is => listOut eiXEncodeLong is
  | .text chars => eiXEncodeString chars
  | .entries es => eiXEncodeListHeader (es.length*2 % 2^32) ++ es.flatMap entryWritten ++
      eiXEncodeEmptyList

/-- A bin under its name. -/
def pairWritten (nameToks : Bytes → List Tok) (b : Bytes × Shape) : List Tok :=
  eiXEncodeTupleHeader 2 ++ nameToks b.1 ++ b.2.toks

variable {α β : Type} {write : α → Except Fault (List Tok)} {shape : α → Option β}
variable {toks : β → List Tok} {c : Client}

/-- The writer stops at what has no shape and else writes its shape. -/
def WritesShape (write : α → Except Fault (List Tok)) (shape : α → Option β)
    (toks : β → List Tok) : Prop :=
  ∀ x, (write x).toOption = (shape x).map toks

theorem writeEach_shapes (h : WritesShape write shape toks) :
    WritesShape (writeEach write) (List.mapM shape) (List.flatMap toks) := by
  intro xs
  induction xs with
  | nil => rfl
  | cons x xs ih =>
    rw [writeEach,List.mapM_cons,toOption_bind,h x]
    cases hx : shape x with
    | none => rfl
    | some y =>
      show (writeEach write xs >>= fun tail => pure (toks y ++ tail)).toOption = _
      rw [toOption_bind,ih]
      cases xs.mapM shape <;> rfl

theorem integerOf_shape : WritesShape listToIntlistEach integerOf eiXEncodeLong := by
  intro val
  cases val <;> rfl

theorem takeField_reads (f : Inner) (pair : AsVal × AsVal) :
    (readInner f pair).toOption = takeField f pair := by
  obtain ⟨key,val⟩ := pair
  cases key <;> cases val <;> rfl

theorem foldlM_takeField (fields : List (AsVal × AsVal)) (f : Inner) :
    (fields.foldlM readInner f).toOption = fields.foldlM takeField f := by
  induction fields generalizing f with
  | nil => rfl
  | cons pair fields ih =>
    rw [List.foldlM_cons,List.foldlM_cons,toOption_bind,takeField_reads]
    cases takeField f pair with
    | none => rfl
    | some g => exact ih g

theorem entryShape_shape : WritesShape entryOut entryShape entryWritten := by
  rintro ⟨key,val⟩
  cases key with
  | string key =>
    cases val with
    | map fields =>
      show (fields.foldlM readInner {} >>= fun f =>
        pure (eiXEncodeBinary key ++ f.toks)).toOption =
          ((fields.foldlM takeField {}).map (Prod.mk key)).map entryWritten
      rw [toOption_bind,foldlM_takeField]
      cases fields.foldlM takeField {} <;> rfl
    | _ => rfl
  | _ => rfl

theorem binaryShape_shape : WritesShape (binaryValueOut c) (binaryShape c) Shape.toks := by
  intro val
  cases val with
  | list xs =>
    show (writeEach listToIntlistEach xs >>= fun body =>
      pure (eiXEncodeListHeader xs.length ++ body ++ eiXEncodeEmptyList)).toOption =
        ((xs.mapM integerOf).map .longs).map Shape.toks
    rw [toOption_bind,writeEach_shapes integerOf_shape]
    cases hxs : xs.mapM integerOf with
    | none => rfl
    | some is =>
      rw [← mapM_length hxs]
      rfl
  | _ => rfl

theorem cdtShape_shape : WritesShape (formatValueOut c) (cdtShape c) Shape.toks := by
  intro val
  have hbinary := binaryShape_shape (c := c) val
  cases val with
  | map es =>
    show (writeEach entryOut es >>= fun body => pure (eiXEncodeListHeader (es.length*2 % 2^32) ++
      body ++ eiXEncodeEmptyList)).toOption = ((es.mapM entryShape).map .entries).map Shape.toks
    rw [toOption_bind,writeEach_shapes entryShape_shape]
    cases hes : es.mapM entryShape with
    | none => rfl
    | some shown =>
      rw [← mapM_length hes]
      rfl
  | _ => exact hbinary

/-- Both binary dumps write a bin alike, up to its value. -/
theorem binOut_shape {write : AsVal → Except Fault (List Tok)} {shape : AsVal → Option Shape}
    (h : WritesShape write shape Shape.toks) : WritesShape (binOut write)
      (fun b => (shape b.2).map (Prod.mk b.1)) (pairWritten eiXEncodeBinary) := by
  rintro ⟨name,val⟩
  show (write val >>= fun value =>
    pure (eiXEncodeTupleHeader 2 ++ eiXEncodeBinary name ++ value)).toOption =
      ((shape val).map (Prod.mk name)).map (pairWritten eiXEncodeBinary)
  rw [toOption_bind,h val]
  cases shape val <;> rfl

theorem dumpBin_shape : WritesShape (dumpBin c)
    (fun b => (textShape c b.2).map (Prod.mk b.1)) (pairWritten eiXEncodeString) := by
  rintro ⟨name,val⟩
  cases val <;> rfl

end Writers

section Widths

theorem width_inner (f : Inner) : width f.toks = innerSize f := by
  have hhead : width (eiXEncodeTupleHeader 3) = 2 := by decide
  have hundefined : width (eiXEncodeAtom "undefined") = 11 := by decide
  unfold Inner.toks innerSize
  split_ifs
  · cases f.vnt with
    | none => simp [hhead,Nat.add_assoc]
    | some value => simp [hhead,Nat.add_assoc]
  · exact hundefined

theorem width_entry (e : Bytes × Inner) : width (entryWritten e) = entrySize e := by
  unfold entryWritten entrySize
  rw [width_append,width_binary,width_inner]

theorem width_shape (sh : Shape) : width sh.toks = sh.size := by
  cases sh with
  | long i => exact width_long i
  | binary data => exact width_binary data
  | longs is => exact width_listOut width_long is
  | text chars => exact width_string chars
  | entries es =>
    unfold Shape.toks Shape.size headerSize
    rw [width_append,width_append,width_listHeader,width_flatMap width_entry,width_emptyList]

theorem writable_inner (f : Inner) : AllWritable f.toks := by
  have hhead : AllWritable (eiXEncodeTupleHeader 3) := writable_one trivial
  have hvalue : AllWritable (f.vnt.elim [] eiXEncodeBinary) := by
    cases f.vnt with
    | none => exact fun _ hmem => absurd hmem List.not_mem_nil
    | some value => exact writable_one trivial
  unfold Inner.toks
  split_ifs
  · exact ((hhead.append hvalue).append (writable_long _)).append (writable_long _)
  · exact writable_one trivial

theorem writable_shape (sh : Shape) : AllWritable sh.toks := by
  have hend : AllWritable eiXEncodeEmptyList := writable_one trivial
  cases sh with
  | long i => exact writable_long i
  | binary data => exact writable_one trivial
  | longs is => exact writable_listOut writable_long is
  | text chars => exact writable_string chars
  | entries es =>
    have hentry : ∀ e : Bytes × Inner, AllWritable (entryWritten e) := by
      intro e
      have hkey : AllWritable (eiXEncodeBinary e.1) := writable_one trivial
      exact hkey.append (writable_inner e.2)
    exact ((writable_listHeader _).append (writable_flatMap hentry es)).append hend

/-- So many entries are not a short reply. -/
theorem length_le_size (es : List (Bytes × Inner)) : es.length ≤ (Shape.entries es).size := by
  have hone : ∀ n ∈ es.map entrySize, 1 ≤ n := by
    intro n hn
    obtain ⟨e,-,rfl⟩ := List.mem_map.mp hn
    unfold entrySize
    omega
  have hsum := List.length_le_sum_of_one_le _ hone
  rw [List.length_map] at hsum
  show es.length ≤ headerSize (es.length*2 % 2^32)+(es.map entrySize).sum+1
  omega

end Widths

section Terms

theorem begins_inner (f : Inner) (post : List Tok) (due : ℕ) :
    Begins (f.toks ++ post) (due+1) ↔
      Begins post (due+if Missing f then 1 else 0) := by
  have hlongs : ∀ k, Begins (eiXEncodeLong f.ttlsm ++ (eiXEncodeLong f.writetime ++ post)) (k+2) ↔
      Begins post k := by
    intro k
    rw [begins_writes (writes_long _),begins_writes (writes_long _)]
  unfold Inner.toks Missing
  by_cases hcount : f.fccount = 2 ∨ f.fccount = 3
  · have hcounted : (f.fccount = 2 || f.fccount = 3 : Bool) = true := by simpa using hcount
    rw [if_pos hcount,hcounted,Bool.true_and]
    cases f.vnt with
    | none =>
      show Begins (eiXEncodeLong f.ttlsm ++ eiXEncodeLong f.writetime ++ post) (3+due) ↔
        Begins post (due+1)
      rw [List.append_assoc,Nat.add_comm 3 due]
      exact hlongs (due+1)
    | some value =>
      show Begins (eiXEncodeBinary value ++ eiXEncodeLong f.ttlsm ++ eiXEncodeLong f.writetime ++
        post) (3+due) ↔ Begins post due
      rw [List.append_assoc,List.append_assoc,Nat.add_comm 3 due,begins_writes (writes_binary _)]
      exact hlongs due
  · have hcounted : (f.fccount = 2 || f.fccount = 3 : Bool) = false := by simpa using hcount
    rw [if_neg hcount,hcounted,Bool.false_and]
    exact begins_writes (writes_atom "undefined") post due

/-- Each entry is a key and what stands under it. -/
theorem begins_entries (es : List (Bytes × Inner)) (post : List Tok) (due : ℕ) :
    Begins (es.flatMap entryWritten ++ post) (2*es.length+due) ↔
      Begins post (due+es.countP (Missing ·.2)) := by
  induction es generalizing due with
  | nil => rw [List.flatMap_nil,List.nil_append,List.length_nil,List.countP_nil,Nat.mul_zero,
      Nat.zero_add,Nat.add_zero]
  | cons e es ih =>
    have hdue : 2*(e::es).length+due = 2*es.length+due+1+1 := by
      rw [List.length_cons]
      omega
    rw [List.flatMap_cons,entryWritten,List.append_assoc,List.append_assoc,hdue,
      begins_writes (writes_binary e.1),begins_inner,Nat.add_assoc,ih,List.countP_cons]
    congr! 1
    omega

/-- A container of no elements is written as two empty lists. -/
theorem begins_twice (post : List Tok) (due : ℕ) :
    Begins (eiXEncodeEmptyList ++ eiXEncodeEmptyList ++ post) (due+1) ↔ Begins post (due-1) := by
  rw [List.append_assoc,begins_writes writes_emptyList]
  cases due with
  | zero => exact iff_of_true (begins_zero _) (begins_zero _)
  | succ due => exact begins_writes writes_emptyList post due

theorem begins_shape {sh : Shape} (h : sh.size < 2^16) (post : List Tok) (due : ℕ) :
    Begins (sh.toks ++ post) (due+1) ↔ Begins post (sh.due due) := by
  cases sh with
  | long i => exact begins_writes (writes_long i) post due
  | binary data => exact begins_writes (writes_binary data) post due
  | text chars => exact begins_writes (writes_string chars) post due
  | longs is =>
    cases is with
    | nil => exact begins_twice post due
    | cons i is =>
      have hlist := writes_listed (writes_flatMap writes_long (i::is)) (List.cons_ne_nil _ _)
      rw [List.length_map] at hlist
      exact begins_writes hlist post due
  | entries es =>
    cases es with
    | nil => exact begins_twice post due
    | cons e es =>
      have hlength := length_le_size (e::es)
      have hheader : eiXEncodeListHeader ((e::es).length*2 % 2^32) = [.list (2*(e::es).length)] := by
        rw [Nat.mod_eq_of_lt (by omega),Nat.mul_comm]
        exact if_neg (by simp)
      have hdue : 2*(e::es).length+1+due = 2*(e::es).length+(due+1) := by omega
      rw [Shape.toks,hheader,List.append_assoc,List.append_assoc]
      show Begins ((e::es).flatMap entryWritten ++ (eiXEncodeEmptyList ++ post))
        (2*(e::es).length+1+due) ↔ _
      rw [hdue,begins_entries,Nat.add_right_comm,begins_writes writes_emptyList]
      rfl

end Terms

section Records
variable {nameToks : Bytes → List Tok} {nameSize : Bytes → ℕ} {c : Client}
variable {dumpBin : Bytes × AsVal → Except Fault (List Tok)} {shape : AsVal → Option Shape}

/-- A name is written as one term of that size. -/
structure NameWriter (nameToks : Bytes → List Tok) (nameSize : Bytes → ℕ) : Prop where
  writes : ∀ name, ∃ t, Writes (nameToks name) [t]
  writable : ∀ name, AllWritable (nameToks name)
  width : ∀ name, width (nameToks name) = nameSize name

theorem stringNames : NameWriter eiXEncodeString textSize :=
  ⟨fun name => ⟨_,writes_string name⟩,writable_string,width_string⟩

theorem binaryNames : NameWriter eiXEncodeBinary (·.length+5) :=
  ⟨fun name => ⟨_,writes_binary name⟩,fun _ => writable_one trivial,width_binary⟩

def binsWritten (nameToks : Bytes → List Tok) (bins : List (Bytes × Shape)) : List Tok :=
  eiXEncodeListHeader (bins.length % 2^16) ++ bins.flatMap (pairWritten nameToks) ++
    eiXEncodeEmptyList

theorem width_pair (hn : NameWriter nameToks nameSize) (b : Bytes × Shape) :
    width (pairWritten nameToks b) = 2+nameSize b.1+b.2.size := by
  have hhead : width (eiXEncodeTupleHeader 2) = 2 := by decide
  unfold pairWritten
  rw [width_append,width_append,hhead,hn.width,width_shape]

theorem width_bins (hn : NameWriter nameToks nameSize) (bins : List (Bytes × Shape)) :
    width (binsWritten nameToks bins) = binsSize nameSize bins := by
  unfold binsWritten binsSize headerSize
  rw [width_append,width_append,width_listHeader,width_flatMap (width_pair hn),width_emptyList]

theorem writable_bins (hn : NameWriter nameToks nameSize) (bins : List (Bytes × Shape)) :
    AllWritable (binsWritten nameToks bins) := by
  have hhead : AllWritable (eiXEncodeTupleHeader 2) := writable_one trivial
  have hend : AllWritable eiXEncodeEmptyList := writable_one trivial
  have hpairs := writable_flatMap
    (fun b => (hhead.append (hn.writable b.1)).append (writable_shape b.2)) bins
  exact ((writable_listHeader _).append hpairs).append hend

theorem begins_pairs (hn : NameWriter nameToks nameSize) {bins : List (Bytes × Shape)}
    (h : ∀ b ∈ bins, b.2.size < 2^16) (due : ℕ) :
    Begins (bins.flatMap (pairWritten nameToks) ++ eiXEncodeEmptyList) due ↔ Closes due bins := by
  induction bins generalizing due with
  | nil =>
    cases due with
    | zero => exact iff_of_true (begins_zero _) trivial
    | succ due =>
      show Begins [] (0+due) ↔ due = 0
      rw [Nat.zero_add]
      exact begins_nil due
  | cons b bins ih =>
    cases due with
    | zero => exact iff_of_true (begins_zero _) trivial
    | succ due =>
      obtain ⟨t,ht⟩ := hn.writes b.1
      have hshort := List.forall_mem_cons.mp h
      rw [List.flatMap_cons,pairWritten,List.append_assoc,List.append_assoc,List.append_assoc]
      show Begins (nameToks b.1 ++ _) (2+due) ↔ _
      rw [Nat.add_comm 2 due,begins_writes ht,begins_shape hshort.1,ih hshort.2]
      rfl

/-- The bins of a short reply are counted as they are, and so are their entries. -/
theorem short_bins {bins : List (Bytes × Shape)} (h : FitsReply (binsSize nameSize bins)) :
    bins.length < 2^16 ∧ ∀ b ∈ bins, b.2.size < 2^16 := by
  unfold FitsReply binsSize at h
  constructor
  · have hone : ∀ n ∈ bins.map (fun b => 2+nameSize b.1+b.2.size), 1 ≤ n := by
      intro n hn
      obtain ⟨b,-,rfl⟩ := List.mem_map.mp hn
      omega
    have hsum := List.length_le_sum_of_one_le _ hone
    rw [List.length_map] at hsum
    omega
  · intro b hb
    have hle := List.single_le_sum (fun n _ => Nat.zero_le n) _
      (List.mem_map_of_mem (f := fun b => 2+nameSize b.1+b.2.size) hb)
    omega

theorem bins_complete_iff (hn : NameWriter nameToks nameSize) (bins : List (Bytes × Shape)) :
    Complete (eiXEncodeAtom "ok" ++ binsWritten nameToks bins) ↔
      FitsReply (binsSize nameSize bins) ∧ Closes (bins.length+1) bins := by
  have hok : AllWritable (eiXEncodeAtom "ok") := writable_one trivial
  have hwidth : width (eiXEncodeAtom "ok") = 4 := by decide
  rw [complete_iff (hok.append (writable_bins hn bins)),begins_writes (writes_atom "ok"),
    width_append,hwidth,width_bins hn,and_comm]
  have hfits : 4+binsSize nameSize bins+3 < 2^16 ↔ FitsReply (binsSize nameSize bins) := by
    unfold FitsReply
    omega
  rw [hfits]
  apply and_congr_right
  intro h
  obtain ⟨hfew,hshort⟩ := short_bins h
  unfold binsWritten
  rw [Nat.mod_eq_of_lt hfew]
  by_cases hbins : bins = []
  · subst hbins
    exact iff_of_true (begins_zero _) rfl
  · have hcount : bins.length ≠ 0 := fun hz => hbins (List.eq_nil_of_length_eq_zero hz)
    rw [eiXEncodeListHeader,if_neg hcount,List.append_assoc]
    exact begins_pairs hn hshort (bins.length+1)

theorem dumpWith_bins (h : WritesShape dumpBin (fun b => (shape b.2).map (Prod.mk b.1))
    (pairWritten nameToks)) {pRec : Record} (hkey : pRec.key = none) :
    (dumpWith c dumpBin (some pRec)).toOption = (binShapes shape pRec.bins).map
      (fun bins => eiXEncodeAtom "ok" ++ binsWritten nameToks bins) := by
  unfold dumpWith
  simp only [hkey]
  show (writeEach dumpBin pRec.bins >>= fun body => pure (eiXEncodeAtom "ok" ++
    eiXEncodeListHeader (pRec.bins.length % 2^16) ++ body ++ eiXEncodeEmptyList)).toOption = _
  rw [toOption_bind,writeEach_shapes h]
  unfold binShapes
  cases hbins : pRec.bins.mapM (fun b => (shape b.2).map (Prod.mk b.1)) with
  | none => rfl
  | some bins =>
    rw [← mapM_length hbins]
    rfl

/-- A dump is written and completes the reply exactly for a fine record. -/
theorem dump_iff (hn : NameWriter nameToks nameSize) (h : WritesShape dumpBin
    (fun b => (shape b.2).map (Prod.mk b.1)) (pairWritten nameToks)) (r : Option Record) :
    (∃ toks, dumpWith c dumpBin r = .ok toks ∧ Complete toks) ↔
      RecordFine c nameSize shape r := by
  cases r with
  | none =>
    apply iff_of_true _ trivial
    refine ⟨_,rfl,?_⟩
    have hwidth : width (eiXEncodeAtom "error") +
        width (eiXEncodeString (textBytes "NULL p_rec - internal error")) + 3 < 2^16 := by decide
    exact (complete_tagged (begins_one (writes_string _)) (writable_string _)).mpr hwidth
  | some pRec =>
    cases hkey : pRec.key with
    | some key =>
      have hdump : dumpWith c dumpBin (some pRec) = .ok (okP (textBytes (c.tostring key))) := by
        unfold dumpWith
        simp only [hkey]
      have hfine : RecordFine c nameSize shape (some pRec) ↔
          FitsReply (textSize (textBytes (c.tostring key))) := by
        unfold RecordFine
        simp only [hkey]
      rw [hfine,← complete_ok (begins_one (writes_string _)) (writable_string _) (width_string _)]
      constructor
      · rintro ⟨toks,htoks,hcomplete⟩
        rw [hdump] at htoks
        cases htoks
        exact hcomplete
      · exact fun hcomplete => ⟨_,hdump,hcomplete⟩
    | none =>
      have hdump := dumpWith_bins (c := c) h hkey
      have hfine : RecordFine c nameSize shape (some pRec) ↔ ∃ bins,
          binShapes shape pRec.bins = some bins ∧ FitsReply (binsSize nameSize bins) ∧
            Closes (bins.length+1) bins := by
        unfold RecordFine
        simp only [hkey]
      rw [hfine]
      cases hbins : binShapes shape pRec.bins with
      | none =>
        rw [hbins] at hdump
        apply iff_of_false
        · rintro ⟨toks,htoks,-⟩
          rw [htoks] at hdump
          cases hdump
        · rintro ⟨bins,hsome,-⟩
          cases hsome
      | some bins =>
        rw [hbins] at hdump
        have htoks : dumpWith c dumpBin (some pRec) =
            .ok (eiXEncodeAtom "ok" ++ binsWritten nameToks bins) := by
          cases hd : dumpWith c dumpBin (some pRec) with
          | error e =>
            rw [hd] at hdump
            cases hdump
          | ok toks =>
            rw [hd] at hdump
            rw [Option.some.inj hdump]
        constructor
        · rintro ⟨toks,hwritten,hcomplete⟩
          rw [htoks] at hwritten
          cases hwritten
          exact ⟨bins,rfl,(bins_complete_iff hn bins).mp hcomplete⟩
        · rintro ⟨bins',hsame,hfits⟩
          cases hsame
          exact ⟨_,htoks,(bins_complete_iff hn bins).mpr hfits⟩

end Records

end AspikePort.RecordShapes
