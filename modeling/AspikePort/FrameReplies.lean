import AspikePort.HandlerReplies
import AspikePort.PortAgreement

/-!
# One frame, one reply

A frame is answered by one good frame unless its handler leaves without a
`POST`, posts the bare header, runs over an array or has too much to show.
-/

set_option autoImplicit false

namespace AspikePort.FrameReplies
open AspikePort.ErlangTerms AspikePort.ClientValues AspikePort.EarlyReturn
open AspikePort.ExternalTerms AspikePort.EiBuffers AspikePort.PortDumps AspikePort.PortCalls
open AspikePort.PortHandlers AspikePort.ReplyFrames AspikePort.PortReplies
open AspikePort.ArgumentLoops AspikePort.HandlerReplies
open AspikePort.PortAgreement (connectedPort)
open Proc

section Conditions
variable (env : PortEnv) (s : PortState)

/-- The condition on the arguments of a command. -/
def CommandFine : Command → Cond
  | .aerospikeInit => fun _ => True
  | .hostAdd => HostAddFine
  | .hostClear => fun _ => True
  | .hostList => fun _ => HostListFine s
  | .connect => ConnectFine
  | .anonConnect => fun _ => True
  | .keyExists => KeyFine
  | .keyInc => KeyPairsFine s
  | .keyGet => KeyGetFine env s
  | .binaryKeyGet => BinaryKeyGetFine env s
  | .keyGeneration => KeyGenerationFine env s
  | .keyPut => KeyPairsFine s
  | .binaryKeyPut => BinaryKeyPutFine s
  | .keyRemove => KeyFine
  | .keySelect => KeySelectFine env s
  | .nodeRandom => fun _ => NodeRandomFine env s
  | .nodeNames => fun _ => NodeNamesFine env s
  | .nodeGet => NodeGetFine env s
  | .nodeInfo => NodeInfoFine env s
  | .hostInfo => HostInfoFine env s
  | .configInfo => fun _ => ConfigInfoFine env s
  | .help => HelpFine env s
  | .clusterInfo => fun _ => ClusterInfoFine env s
  | .portStatus => fun _ => True
  | .cdtGet => CdtGetFine env s
  | .cdtPut => CdtPutFine env
  | .cdtExpire => fun _ => StubFine s
  | .cdtDeleteByKeys => fun _ => StubFine s
  | .cdtDeleteByKeysBatch => fun _ => StubFine s
  | .binaryRemove => fun _ => StubFine s

/-- The name fits its array, and so goes the command it begins with. -/
def CallFine (arity : ℕ) : Cond := fun toks =>
  (eiDecodeAtom toks).1 ≤ fnameSize ∧ ∀ fname rest, (eiDecodeAtom toks).2 = some (fname,rest) →
    ∀ cmd, commands.find? (checkName fname arity) = some cmd → CommandFine env s cmd rest

/-- What is noted ends inside the buffer. -/
def NoteFine (rest : Bytes) : Cond := fun toks => 0 ∈ textAt toks rest

/-- The frame fits the buffer, and it is a call or is noted. -/
def FrameFine (payload : List Tok) (behind : Behind) : Prop :=
  1+width payload ≤ bufSize ∧ match eiDecodeTupleHeader (payload ++ behind.stale) with
    | some (arity,rest) =>
      if 0 < arity then CallFine env s arity rest else NoteFine behind.rest rest
    | none => NoteFine behind.rest (payload ++ behind.stale)

end Conditions

section Frames
variable {env : PortEnv} {s : PortState}

theorem command_answers (cmd : Command) (toks : List Tok) :
    Answers s.written (cmd.call env (s.goto toks)) ↔ CommandFine env s cmd toks := by
  cases cmd with
  | aerospikeInit => exact iff_true_intro (aerospikeInit_answers toks)
  | hostAdd => exact hostAdd_answers toks
  | hostClear => exact iff_true_intro (hostClear_answers toks)
  | hostList => exact hostList_answers toks
  | connect => exact connect_answers toks
  | anonConnect => exact iff_true_intro (anonConnect_answers toks)
  | keyExists => exact keyExists_answers toks
  | keyInc => exact keyInc_answers toks
  | keyGet => exact keyGet_answers toks
  | binaryKeyGet => exact binaryKeyGet_answers toks
  | keyGeneration => exact keyGeneration_answers toks
  | keyPut => exact keyPut_answers toks
  | binaryKeyPut => exact binaryKeyPut_answers toks
  | keyRemove => exact keyRemove_answers toks
  | keySelect => exact keySelect_answers toks
  | nodeRandom => exact nodeRandom_answers toks
  | nodeNames => exact nodeNames_answers toks
  | nodeGet => exact nodeGet_answers toks
  | nodeInfo => exact nodeInfo_answers toks
  | hostInfo => exact hostInfo_answers toks
  | configInfo => exact configInfo_answers toks
  | help => exact help_answers toks
  | clusterInfo => exact clusterInfo_answers toks
  | portStatus => exact iff_true_intro (portStatus_answers toks)
  | cdtGet => exact cdtGet_answers toks
  | cdtPut => exact cdtPut_answers toks
  | cdtExpire => exact stub_answers toks
  | cdtDeleteByKeys => exact stub_answers toks
  | cdtDeleteByKeysBatch => exact stub_answers toks
  | binaryRemove => exact stub_answers toks

theorem fail_answers {msg : Bytes} (hmsg : Short msg) : Answers s.written (fail msg s) :=
  (answers_put (fresh_begun s) _).mpr (complete_message (by decide) hmsg)

theorem cStr_short {data : Bytes} (h : data.length < 1024) : Short (cStr data) :=
  (List.takeWhile_prefix _).length_le.trans_lt h

theorem latin1Atom_stored {name : String} {chars : Bytes}
    (h : (latin1Atom name).2 = some chars) : (latin1Atom name).1 = chars.length+1 := by
  by_cases hwhole : (name.toList.takeWhile isLatin1).length = name.toList.length ∧
      (name.toList.takeWhile isLatin1).length < 256
  · have heq : latin1Atom name = ((name.toList.takeWhile isLatin1).length+1,
        some (name.toList.map (fun ch => Fin.ofNat 256 ch.toNat))) := if_pos hwhole
    rw [heq] at h ⊢
    cases h
    rw [List.length_map]
    exact congrArg (·+1) hwhole.1
  · have heq : latin1Atom name = (min (name.toList.takeWhile isLatin1).length 255,none) :=
      if_neg hwhole
    rw [heq] at h
    cases h

/-- The characters of a name are stored with one byte each and a zero. -/
theorem atom_stored {toks rest : List Tok} {fname : Bytes}
    (h : (eiDecodeAtom toks).2 = some (fname,rest)) : (eiDecodeAtom toks).1 = fname.length+1 := by
  cases toks with
  | nil => cases h
  | cons tok toks =>
    cases tok with
    | atom name =>
      obtain ⟨chars,hchars,heq⟩ := Option.map_eq_some_iff.mp h
      cases heq
      exact latin1Atom_stored hchars
    | other tag body term =>
      cases term with
      | atom name =>
        obtain ⟨chars,hchars,heq⟩ := Option.map_eq_some_iff.mp h
        cases heq
        exact latin1Atom_stored hchars
      | _ => cases h
    | _ => cases h

theorem functionCall_answers (arity : ℕ) (toks : List Tok) :
    Answers s.written (functionCall env arity (s.goto toks)) ↔ CallFine env s arity toks := by
  unfold functionCall CallFine
  by_cases hsize : fnameSize < (eiDecodeAtom toks).1
  · have hrun : decodeAtomInto fnameSize (s.goto toks) =
        (.error (.fault .bufferOverflow),s.goto toks) := if_pos hsize
    rw [bind_run_error _ hrun]
    exact iff_of_false not_answers_fault (fun hc => absurd hc.1 (by omega))
  · rw [and_iff_right (by omega)]
    cases hread : (eiDecodeAtom toks).2 with
    | none =>
      have hrun : decodeAtomInto fnameSize (s.goto toks) = (.ok none,s.goto toks) := by
        unfold decodeAtomInto
        rw [goto_index,if_neg hsize,hread]
      rw [bind_run_ok _ hrun]
      exact iff_of_true (fail_answers (by decide)) (fun _ _ hc => nomatch hc)
    | some r =>
      obtain ⟨fname,rest⟩ := r
      have hrun : decodeAtomInto fnameSize (s.goto toks) = (.ok (some fname),s.goto rest) := by
        unfold decodeAtomInto
        rw [goto_index,if_neg hsize,hread]
        rfl
      have hshort : fname.length < 1024 := by
        rw [atom_stored hread] at hsize
        unfold fnameSize at hsize
        omega
      rw [bind_run_ok _ hrun,forall_read_iff]
      show Answers s.written (callOrFail env fname (commands.find? (checkName fname arity))
        (s.goto rest)) ↔ _
      cases commands.find? (checkName fname arity) with
      | none => exact iff_of_true (fail_answers (cStr_short hshort)) (fun _ hc => nomatch hc)
      | some cmd =>
        show Answers s.written (cmd.call env (s.goto rest)) ↔ _
        rw [command_answers]
        exact (forall_some_iff (p := fun cmd => CommandFine env s cmd rest)).symm

theorem note_answers (rest : Bytes) (toks : List Tok) :
    Answers s.written (noteIndex rest (s.goto toks)) ↔ NoteFine rest toks := by
  unfold noteIndex NoteFine
  rw [state_bind_run,goto_index]
  split_ifs with hzero
  · have hlength : (textAt toks rest).length < 1024 := by
      unfold textAt bufSize
      rw [List.length_take]
      omega
    apply iff_of_true _ hzero
    exact (answers_put ((fresh_begun s).goto toks) _).mpr
      (complete_message (by decide) (cStr_short hlength))
  · exact iff_of_false not_answers_fault hzero

/-- Processing a frame writes exactly one frame with one complete pair if and
only if `FrameFine` holds. -/
theorem frame_answered_iff (env : PortEnv) (s : PortState) (payload : List Tok)
    (behind : Behind) : Answers s.written (processFrame env payload behind s) ↔
      FrameFine env s payload behind := by
  unfold processFrame FrameFine width
  by_cases hsize : bufSize < 1+(payload.flatMap Tok.bytes).length
  · rw [if_pos hsize]
    exact iff_of_false not_answers_fault (fun hc => absurd hc.1 (by omega))
  · rw [if_neg hsize,and_iff_right (by omega),update_bind_run]
    show Answers s.written ((decode eiDecodeTupleHeader >>= _)
      (s.goto (payload ++ behind.stale))) ↔ _
    cases hread : eiDecodeTupleHeader (payload ++ behind.stale) with
    | none =>
      rw [bind_run_ok _ (decode_none hread)]
      exact note_answers behind.rest _
    | some r =>
      obtain ⟨arity,rest⟩ := r
      rw [bind_run_ok _ (decode_some hread)]
      show Answers s.written ((if 0 < arity then functionCall env arity
        else noteIndex behind.rest) (s.goto rest)) ↔
          if 0 < arity then CallFine env s arity rest else NoteFine behind.rest rest
      split_ifs
      · exact functionCall_answers arity rest
      · exact note_answers behind.rest rest

end Frames

section Example

/-- A client that succeeds and finds nothing. -/
def plainPort : PortEnv where
  client := plainClient
  now := 0
  uninit := fun _ => 0
  respond := fun _ => ⟨0,0,"",none,fun _ => 0⟩
  short := fun _ => by decide
  addHosts := fun _ _ => some []
  connect := none
  fixedConfig := ⟨none,0,0,0,0,0,0,0,0,0,0,0,false,false,false,0,false,0,0,0,0,0,false,false⟩
  cluster := ⟨none,none,none,[],0,0⟩
  randomNode := none
  nodeNameMaxSize := 20
  infoCommandNode := fun _ _ => .ok none
  lookupHost := fun _ _ => .ok []
  infoCommandHost := fun _ _ => (0,none)
  infoAny := fun _ => .ok none

/-- `{cdt_expire, [], [], [], []}` -/
def expireFrame : List Tok := [.tuple 5,.atom "cdt_expire",.nil,.nil,.nil,.nil]

/-- The handler of `cdt_expire` posts a header and no pair. -/
theorem bare_header_posted : ¬∀ (env : PortEnv) (s : PortState) (payload : List Tok)
    (behind : Behind), (∃ t, terms payload = some [t]) → AllValid payload →
      1+width payload ≤ bufSize → Answers s.written (processFrame env payload behind s) := by
  intro h
  have hhead : AllValid [.tuple 5] := allValid_one (show 5 < 2^32 by decide)
  have hname : AllValid [.atom "cdt_expire"] :=
    allValid_one (show (textBytes "cdt_expire").length < 2^16 by decide)
  have hnil : AllValid [.nil] := allValid_one trivial
  have hvalid : AllValid expireFrame :=
    hhead.append (hname.append (hnil.append (hnil.append (hnil.append hnil))))
  have hanswer := h plainPort connectedPort expireFrame ⟨[],[]⟩ ⟨_,rfl⟩ hvalid (by decide)
  have hcall : Answers connectedPort.written
      (functionCall plainPort 5 (connectedPort.goto expireFrame.tail)) := hanswer
  have hstub := ((functionCall_answers 5 expireFrame.tail).mp hcall).2 _ _ rfl .cdtExpire rfl
  exact hstub ⟨rfl,rfl⟩

end Example

end AspikePort.FrameReplies
