import AspikePort.FrameReplies

/-!
# Which handler a request runs

The names are tried one after the other, each as far as its pattern goes. The
number of elements keeps the commands apart from each other, but not from a
longer name that is no command at all.
-/

set_option autoImplicit false

namespace AspikePort.PortDispatch
open AspikePort.ErlangTerms AspikePort.ClientValues AspikePort.EarlyReturn AspikePort.EiBuffers
open AspikePort.ExternalTerms
open AspikePort.PortCalls AspikePort.PortHandlers Proc
open AspikePort.PortAgreement (connectedPort)

section Calls

def callOr (handler : Command → Port Unit) (fname : Bytes) : Option Command → Port Unit
  | some cmd => handler cmd
  | none => fail (cStr fname)

/-- The dispatch with any handlers, and with its tests in any order. -/
def functionCallBy (handler : Command → Port Unit) (order : List Command) (arity : ℕ) :
    Port Unit := do
  match ← decodeAtomInto fnameSize with
  | none => ifail 3
  | some fname => callOr handler fname (order.find? (checkName fname arity))

theorem functionCall_by (env : PortEnv) (arity : ℕ) :
    functionCall env arity = functionCallBy (Command.call env) commands arity := by
  unfold functionCall functionCallBy
  congr 1

/-- The first head is an atom of this name, under its own tag or an older one. -/
def HeadedBy (name : String) (toks rest : List Tok) : Prop :=
  toks = .atom name::rest ∨ ∃ tag body, toks = .other tag body (.atom name)::rest

def failFrame (msg : Bytes) : List Tok :=
  eiXEncodeTupleHeader 2 ++ (eiXEncodeAtom "error" ++ eiXEncodeString msg)

/-- One error is written and everything else is as it was. -/
def FailReply (s : PortState) (r : Except Leave Unit × PortState) : Prop :=
  ∃ msg index, r = (.error .returned,{ s with
    index := index
    resBuf := failFrame msg
    written := s.written ++ [failFrame msg] })

/-- The handler of a command runs for its own name and number of elements, every
other request fails, and the order of the tests makes no difference. -/
structure Dispatched (name : String) (arity : ℕ) : Prop where
  own : ∀ (handler : Command → Port Unit) (s : PortState) (toks rest : List Tok),
    HeadedBy name toks rest → ∀ cmd : Command, cmd.pattern = (name,arity) →
      functionCallBy handler commands arity (s.goto toks) = handler cmd (s.goto rest)
  others : ∀ (handler : Command → Port Unit) (s : PortState) (toks rest : List Tok),
    HeadedBy name toks rest → (∀ cmd : Command, cmd.pattern ≠ (name,arity)) →
      FailReply s (functionCallBy handler commands arity (s.goto toks))
  anyOrder : ∀ (handler : Command → Port Unit) (s : PortState) (order : List Command),
    order.Perm commands →
      functionCallBy handler order arity s = functionCallBy handler commands arity s

end Calls

section Patterns

deriving instance DecidableEq for Command

theorem commands_complete (cmd : Command) : cmd ∈ commands := by
  cases cmd <;> simp [commands]

def latin1Byte (ch : Char) : Byte := Fin.ofNat 256 ch.toNat

/-- A pattern is short, has a byte for each character, and ends at its end. -/
structure Plain (pattern : String) : Prop where
  latin1 : ∀ ch ∈ pattern.toList, isLatin1 ch = true
  bytes : textBytes pattern = pattern.toList.map latin1Byte
  zeroFree : 0 ∉ textBytes pattern
  short : pattern.toList.length < 127

theorem plain_pattern (cmd : Command) : Plain cmd.pattern.1 := by
  have hall : ∀ cmd ∈ commands, cmd.pattern.1.toList.all isLatin1 = true ∧
      textBytes cmd.pattern.1 = cmd.pattern.1.toList.map latin1Byte ∧
      0 ∉ textBytes cmd.pattern.1 ∧ cmd.pattern.1.toList.length < 127 := by decide +kernel
  obtain ⟨hlatin,hbytes,hzero,hshort⟩ := hall cmd (commands_complete cmd)
  exact ⟨List.all_eq_true.mp hlatin,hbytes,hzero,hshort⟩

/-- No pattern begins another one of the same number of elements. -/
theorem patterns_apart {a b : Command} (harity : a.pattern.2 = b.pattern.2)
    (h : a.pattern.1.toList <+: b.pattern.1.toList) : a = b := by
  have hall : ∀ a ∈ commands, ∀ b ∈ commands, a.pattern.2 = b.pattern.2 →
      a.pattern.1.toList <+: b.pattern.1.toList → a = b := by decide +kernel
  exact hall a (commands_complete a) b (commands_complete b) harity h

theorem latin1Byte_eq {a b : Char} (ha : isLatin1 a = true) (hb : isLatin1 b = true)
    (h : latin1Byte a = latin1Byte b) : a = b := by
  have hmod : a.toNat%256 = b.toNat%256 := Fin.ext_iff.mp h
  have ha' : a.toNat < 256 := of_decide_eq_true ha
  have hb' : b.toNat < 256 := of_decide_eq_true hb
  apply Char.toNat_inj.mp
  omega

theorem map_prefix_iff {xs ys : List Char} (hx : ∀ ch ∈ xs, isLatin1 ch = true)
    (hy : ∀ ch ∈ ys, isLatin1 ch = true) :
    xs.map latin1Byte <+: ys.map latin1Byte ↔ xs <+: ys := by
  constructor
  · intro h
    induction xs generalizing ys with
    | nil => exact List.nil_prefix
    | cons x xs ih =>
      cases ys with
      | nil => exact absurd (List.prefix_nil.mp h) (List.cons_ne_nil _ _)
      | cons y ys =>
        obtain ⟨hhead,htail⟩ := List.cons_prefix_cons.mp h
        obtain ⟨hxhead,hxtail⟩ := List.forall_mem_cons.mp hx
        obtain ⟨hyhead,hytail⟩ := List.forall_mem_cons.mp hy
        exact List.cons_prefix_cons.mpr ⟨latin1Byte_eq hxhead hyhead hhead,ih hxtail hytail htail⟩
  · exact fun h => h.map latin1Byte

theorem prefix_cStr_iff {p data : Bytes} (hp : 0 ∉ p) : p <+: cStr data ↔ p <+: data := by
  constructor
  · exact fun h => h.trans (List.takeWhile_prefix _)
  · rintro ⟨rest,rfl⟩
    rw [KeptTexts.cStr_zeroFree_append hp]
    exact List.prefix_append _ _

/-- A name that can be read as a whole. -/
theorem latin1Atom_some {name : String} {chars : Bytes} (h : (latin1Atom name).2 = some chars) :
    (∀ ch ∈ name.toList, isLatin1 ch = true) ∧ chars = name.toList.map latin1Byte := by
  by_cases hwhole : (name.toList.takeWhile isLatin1).length = name.toList.length ∧
      (name.toList.takeWhile isLatin1).length < 256
  · have heq : latin1Atom name = ((name.toList.takeWhile isLatin1).length+1,
        some (name.toList.map latin1Byte)) := if_pos hwhole
    rw [heq] at h
    refine ⟨?_,(Option.some.inj h).symm⟩
    have hself := (List.takeWhile_prefix isLatin1).eq_of_length hwhole.1
    exact List.takeWhile_eq_self_iff.mp hself
  · have heq : latin1Atom name = (min (name.toList.takeWhile isLatin1).length 255,none) :=
      if_neg hwhole
    rw [heq] at h
    cases h

theorem latin1Atom_read {name : String} (hlatin : ∀ ch ∈ name.toList, isLatin1 ch = true)
    (hshort : name.toList.length < 256) :
    latin1Atom name = (name.toList.length+1,some (name.toList.map latin1Byte)) := by
  have hself : name.toList.takeWhile isLatin1 = name.toList :=
    List.takeWhile_eq_self_iff.mpr hlatin
  unfold latin1Atom
  simp only [hself]
  exact if_pos ⟨trivial,hshort⟩

theorem checkName_iff {name : String} {chars : Bytes} (h : (latin1Atom name).2 = some chars)
    (arity : ℕ) (cmd : Command) : checkName chars arity cmd = true ↔
      cmd.pattern.1.toList <+: name.toList ∧ cmd.pattern.2 = arity := by
  obtain ⟨hlatin,rfl⟩ := latin1Atom_some h
  have hplain := plain_pattern cmd
  unfold checkName
  rw [Bool.and_eq_true,List.isPrefixOf_iff_prefix,prefix_cStr_iff hplain.zeroFree,hplain.bytes,
    map_prefix_iff hplain.latin1 hlatin,decide_eq_true_iff]
  exact and_congr_right (fun _ => eq_comm)

end Patterns

section Order

/-- A test that one element at most passes finds it in any order. -/
theorem find_perm {α : Type} {p : α → Bool} {xs ys : List α} (hperm : xs.Perm ys)
    (hone : ∀ a b, p a = true → p b = true → a = b) : xs.find? p = ys.find? p := by
  cases hx : xs.find? p with
  | none =>
    symm
    rw [List.find?_eq_none]
    exact fun y hy => List.find?_eq_none.mp hx y (hperm.mem_iff.mpr hy)
  | some a =>
    have ha := List.find?_some hx
    have hmem := hperm.mem_iff.mp (List.mem_of_find?_eq_some hx)
    cases hy : ys.find? p with
    | none => exact absurd ha (List.find?_eq_none.mp hy a hmem)
    | some b => rw [hone a b ha (List.find?_some hy)]

theorem checkName_unique {fname : Bytes} {arity : ℕ} {a b : Command}
    (ha : checkName fname arity a = true) (hb : checkName fname arity b = true) : a = b := by
  have hplainA := plain_pattern a
  have hplainB := plain_pattern b
  unfold checkName at ha hb
  rw [Bool.and_eq_true,List.isPrefixOf_iff_prefix,decide_eq_true_iff] at ha hb
  have harity : a.pattern.2 = b.pattern.2 := ha.2.symm.trans hb.2
  rcases List.prefix_or_prefix_of_prefix ha.1 hb.1 with hpre | hpre
  · rw [hplainA.bytes,hplainB.bytes,map_prefix_iff hplainA.latin1 hplainB.latin1] at hpre
    exact patterns_apart harity hpre
  · rw [hplainA.bytes,hplainB.bytes,map_prefix_iff hplainB.latin1 hplainA.latin1] at hpre
    exact (patterns_apart harity.symm hpre).symm

theorem find_command {fname : Bytes} {arity : ℕ} {cmd : Command}
    (h : checkName fname arity cmd = true) :
    commands.find? (checkName fname arity) = some cmd := by
  cases hfind : commands.find? (checkName fname arity) with
  | none => exact absurd h (List.find?_eq_none.mp hfind cmd (commands_complete cmd))
  | some a => rw [checkName_unique (List.find?_some hfind) h]

theorem any_order (handler : Command → Port Unit) (s : PortState) {order : List Command}
    (hperm : order.Perm commands) (arity : ℕ) :
    functionCallBy handler order arity s = functionCallBy handler commands arity s := by
  have hfind : ∀ fname, order.find? (checkName fname arity) =
      commands.find? (checkName fname arity) :=
    fun fname => find_perm hperm (fun _ _ => checkName_unique)
  unfold functionCallBy
  simp only [hfind]

end Order

section Names
variable {name : String} {arity : ℕ} {handler : Command → Port Unit} {s : PortState}
  {toks rest : List Tok}

/-- The name fits its array, and no pattern of this number of elements begins
it without being the name. -/
structure Kept (name : String) (arity : ℕ) : Prop where
  stored : (latin1Atom name).1 ≤ fnameSize
  whole : (∀ ch ∈ name.toList, isLatin1 ch = true) → ∀ cmd : Command, cmd.pattern.2 = arity →
    cmd.pattern.1.toList <+: name.toList → cmd.pattern.1 = name

theorem headedBy_read (h : HeadedBy name toks rest) : eiDecodeAtom toks =
    ((latin1Atom name).1,(latin1Atom name).2.map (fun chars => (chars,rest))) := by
  rcases h with rfl | ⟨tag,body,rfl⟩ <;> rfl

theorem call_overflows (hlong : fnameSize < (eiDecodeAtom toks).1) :
    functionCallBy handler commands arity (s.goto toks) =
      (.error (.fault .bufferOverflow),s.goto toks) := by
  apply bind_run_error
  unfold decodeAtomInto
  rw [goto_index,if_pos hlong]

theorem call_read (hfits : (eiDecodeAtom toks).1 ≤ fnameSize) {chars : Bytes}
    (hread : (eiDecodeAtom toks).2 = some (chars,rest)) :
    functionCallBy handler commands arity (s.goto toks) =
      callOr handler chars (commands.find? (checkName chars arity)) (s.goto rest) := by
  have hrun : decodeAtomInto fnameSize (s.goto toks) = (.ok (some chars),s.goto rest) := by
    unfold decodeAtomInto
    rw [goto_index,if_neg (not_lt.mpr hfits),hread]
    rfl
  exact bind_run_ok _ hrun

theorem call_unread (hfits : (eiDecodeAtom toks).1 ≤ fnameSize)
    (hread : (eiDecodeAtom toks).2 = none) :
    functionCallBy handler commands arity (s.goto toks) = ifail 3 (s.goto toks) := by
  have hrun : decodeAtomInto fnameSize (s.goto toks) = (.ok none,s.goto toks) := by
    unfold decodeAtomInto
    rw [goto_index,if_neg (not_lt.mpr hfits),hread]
  exact bind_run_ok _ hrun

theorem headed_read (h : HeadedBy name toks rest) (hfits : (latin1Atom name).1 ≤ fnameSize)
    {chars : Bytes} (hchars : (latin1Atom name).2 = some chars) :
    functionCallBy handler commands arity (s.goto toks) =
      callOr handler chars (commands.find? (checkName chars arity)) (s.goto rest) := by
  have hread := headedBy_read h
  apply call_read
  · rwa [hread]
  · rw [hread,hchars]
    rfl

theorem fail_reply (msg : Bytes) (toks : List Tok) : FailReply s (fail msg (s.goto toks)) :=
  ⟨msg,toks,rfl⟩

theorem command_read (cmd : Command) : latin1Atom cmd.pattern.1 =
    (cmd.pattern.1.toList.length+1,some (cmd.pattern.1.toList.map latin1Byte)) := by
  have hplain := plain_pattern cmd
  have hshort := hplain.short
  exact latin1Atom_read hplain.latin1 (by omega)

theorem command_fits (cmd : Command) : (latin1Atom cmd.pattern.1).1 ≤ fnameSize := by
  have hshort := (plain_pattern cmd).short
  rw [command_read]
  show cmd.pattern.1.toList.length+1 ≤ 128
  omega

theorem own_handler (h : HeadedBy name toks rest) {cmd : Command}
    (hcmd : cmd.pattern = (name,arity)) :
    functionCallBy handler commands arity (s.goto toks) = handler cmd (s.goto rest) := by
  have hname : cmd.pattern.1 = name := congrArg Prod.fst hcmd
  subst hname
  have hread := congrArg Prod.snd (command_read cmd)
  have hcheck := (checkName_iff hread arity cmd).mpr ⟨List.prefix_rfl,congrArg Prod.snd hcmd⟩
  rw [headed_read h (command_fits cmd) hread,find_command hcheck]
  rfl

theorem other_fails (hkept : Kept name arity) (h : HeadedBy name toks rest)
    (hother : ∀ cmd : Command, cmd.pattern ≠ (name,arity)) :
    FailReply s (functionCallBy handler commands arity (s.goto toks)) := by
  cases hchars : (latin1Atom name).2 with
  | none =>
    have hread := headedBy_read h
    rw [call_unread (by rw [hread]; exact hkept.stored) (by rw [hread,hchars]; rfl)]
    exact fail_reply _ _
  | some chars =>
    rw [headed_read h hkept.stored hchars]
    cases hfind : commands.find? (checkName chars arity) with
    | none => exact fail_reply _ _
    | some cmd =>
      obtain ⟨hpre,harity⟩ := (checkName_iff hchars arity cmd).mp (List.find?_some hfind)
      have hname := hkept.whole (latin1Atom_some hchars).1 cmd harity hpre
      exact absurd (Prod.ext hname harity) (hother cmd)

/-- A handler that no fail reply looks like. -/
def loud : Command → Port Unit := fun _ => stop (.fault .outOfFuel)

theorem not_failReply_fault {f : Fault} {t : PortState} : ¬FailReply s (.error (.fault f),t) := by
  rintro ⟨msg,index,h⟩
  cases h

theorem whole_name (h : ∀ ch ∈ name.toList, isLatin1 ch = true)
    (hfits : (latin1Atom name).1 ≤ fnameSize) : name.toList.length < 256 := by
  by_contra hlong
  have hself : name.toList.takeWhile isLatin1 = name.toList := List.takeWhile_eq_self_iff.mpr h
  unfold latin1Atom at hfits
  simp only [hself] at hfits
  rw [if_neg (fun hwhole => hlong hwhole.2)] at hfits
  have hfits' : min name.toList.length 255 ≤ 128 := hfits
  omega

theorem dispatched_kept (h : Dispatched name arity) : Kept name arity := by
  have hhead : HeadedBy name [.atom name] [] := .inl rfl
  have hfits : (latin1Atom name).1 ≤ fnameSize := by
    by_contra hlong
    have hother : ∀ cmd : Command, cmd.pattern ≠ (name,arity) := by
      intro cmd hcmd
      have hname : cmd.pattern.1 = name := congrArg Prod.fst hcmd
      exact hlong (hname ▸ command_fits cmd)
    have hreply := h.others loud connectedPort _ _ hhead hother
    rw [call_overflows (by rw [headedBy_read hhead]; exact not_le.mp hlong)] at hreply
    exact not_failReply_fault hreply
  refine ⟨hfits,fun hlatin cmd harity hpre => ?_⟩
  by_contra hne
  have hother : ∀ cmd : Command, cmd.pattern ≠ (name,arity) := by
    intro own hown
    have hname : own.pattern.1 = name := congrArg Prod.fst hown
    have hsame : cmd = own :=
      patterns_apart (harity.trans (congrArg Prod.snd hown).symm) (hname.symm ▸ hpre)
    exact hne (hsame ▸ hname)
  have hreply := h.others loud connectedPort _ _ hhead hother
  have hread := congrArg Prod.snd (latin1Atom_read hlatin (whole_name hlatin hfits))
  have hcheck := (checkName_iff hread arity cmd).mpr ⟨hpre,harity⟩
  rw [headed_read hhead hfits hread,find_command hcheck] at hreply
  exact not_failReply_fault hreply

theorem dispatched_iff (name : String) (arity : ℕ) : Dispatched name arity ↔ Kept name arity := by
  constructor
  · exact dispatched_kept
  · intro h
    exact ⟨fun _ _ _ _ hhead _ hcmd => own_handler hhead hcmd,
      fun _ _ _ _ hhead hother => other_fails h hhead hother,
      fun handler s _ hperm => any_order handler s hperm arity⟩

/-- A request for a name that only begins like a command. -/
theorem longer_name_confused : ¬∀ (name : String) (arity : ℕ), Dispatched name arity := by
  intro h
  have hkept := dispatched_kept (h "key_getx" 4)
  have hname := hkept.whole (List.all_eq_true.mp (by decide)) .keyGet rfl (by decide)
  exact absurd hname (by decide)

end Names

end AspikePort.PortDispatch
