import AspikePort.PortDispatch
import AspikePort.PortFrames

/-!
# What a frame stores in fixed arrays

A frame is read into the buffer of `main`, its name and its texts go to arrays
of the handlers. The decoders take what stands in memory, head by head, so what
they store is a function of the frame and of the bytes behind it.
-/

set_option autoImplicit false

namespace AspikePort.PortStores
open AspikePort.ErlangTerms AspikePort.ClientValues AspikePort.EarlyReturn
open AspikePort.ExternalTerms AspikePort.EiBuffers AspikePort.FramedStreams AspikePort.PortDumps
open AspikePort.PortCalls AspikePort.PortHandlers AspikePort.PortReplies AspikePort.ArgumentLoops
open AspikePort.HandlerReplies AspikePort.PortDispatch AspikePort.PortFrames Proc
open AspikePort.PortAgreement (connectedPort)
open AspikePort.FrameReplies (plainPort)

section Heads

/-- The high byte first. -/
def number (bytes : Bytes) : ℕ := bytes.foldl (fun n b => 256*n+b.val) 0

def signed32 (n : ℕ) : ℤ := if n < 2^31 then n else (n:ℤ)-2^32

/-- A count is read into an `int`, and a loop up to a negative one has no rounds. -/
def intCount (n : ℕ) : ℕ := if n < 2^31 then n else 0

/-- The next `n` bytes. -/
def fixed (n : ℕ) (make : Bytes → Tok) (bytes : Bytes) : Option (Tok × Bytes) :=
  if bytes.length < n then none else some (make (bytes.take n),bytes.drop n)

/-- As many bytes as the next `k` say, and `extra` more before them. -/
def counted (k : ℕ) (make : Bytes → Tok) (bytes : Bytes) : Option (Tok × Bytes) :=
  if bytes.length < k then none else fixed (number (bytes.take k)) make (bytes.drop k)

/-- The sign stands between the count and the digits. -/
def bigAt (k : ℕ) (bytes : Bytes) : Option (Tok × Bytes) :=
  match bytes.drop k with
  | sign::digits => fixed (number (bytes.take k)) (fun d => .big (sign ≠ 0) d) digits
  | [] => none

/-- The characters of an atom that fit one byte, and a mark where another one begins. -/
def latin1Chars : Bytes → List Char
  | [] => []
  | [a] => if a < 0x80 then [Char.ofNat a.val] else [Char.ofNat 0xFFFD]
  | a::b::rest =>
    if a < 0x80 then Char.ofNat a.val::latin1Chars (b::rest)
    else if (a = 0xC2 ∨ a = 0xC3) ∧ 0x80 ≤ b ∧ b < 0xC0 then
      Char.ofNat ((a.val-0xC0)*64+(b.val-0x80))::latin1Chars rest
    else [Char.ofNat 0xFFFD]

def utf8Atom (data : Bytes) : Tok := .atom (String.ofList (latin1Chars data))

/-- An atom under an older tag; more than 255 bytes are refused at once. -/
def olderAtom (tag : Byte) (data : Bytes) : Tok :=
  .other tag data (if data.length < 256 then
    .atom (String.ofList (data.map (fun b => Char.ofNat b.val))) else .nil)

/-- What stands behind a tag; an unknown tag is read by no decoder. -/
def headBody (tag : Byte) (bytes : Bytes) : Option (Tok × Bytes) :=
  match tag.val with
  | 97 => fixed 1 (fun b => .smallInteger (b.headD 0)) bytes
  | 98 => fixed 4 (fun b => .integer (signed32 (number b))) bytes
  | 110 => bigAt 1 bytes
  | 111 => bigAt 4 bytes
  | 70 => fixed 8 (fun b => .float (number b)) bytes
  | 119 => counted 1 utf8Atom bytes
  | 118 => counted 2 utf8Atom bytes
  | 115 => counted 1 (olderAtom tag) bytes
  | 100 => counted 2 (olderAtom tag) bytes
  | 104 => fixed 1 (fun b => .tuple (number b)) bytes
  | 105 => fixed 4 (fun b => .tuple (intCount (number b))) bytes
  | 106 => some (.nil,bytes)
  | 107 => counted 2 .string bytes
  | 108 => fixed 4 (fun b => .list (intCount (number b))) bytes
  | 109 => counted 4 .binary bytes
  | 116 => fixed 4 (fun b => .map (number b)) bytes
  | _ => none

/-- The head that stands at the front of the memory. -/
def headAt : Bytes → Option (Tok × Bytes)
  | [] => none
  | tag::bytes => headBody tag bytes

/-- The heads of a memory of `n` bytes, as far as they can be read. -/
def headsWithin : ℕ → Bytes → List Tok
  | 0, _ => []
  | n+1, mem => match headAt mem with
    | some (tok,rest) => tok::headsWithin n rest
    | none => []

def heads (mem : Bytes) : List Tok := headsWithin mem.length mem

theorem fixed_shorter {n : ℕ} {make : Bytes → Tok} {bytes rest : Bytes} {tok : Tok}
    (h : fixed n make bytes = some (tok,rest)) : rest.length ≤ bytes.length := by
  unfold fixed at h
  split_ifs at h
  cases h
  rw [List.length_drop]
  omega

theorem counted_shorter {k : ℕ} {make : Bytes → Tok} {bytes rest : Bytes} {tok : Tok}
    (h : counted k make bytes = some (tok,rest)) : rest.length ≤ bytes.length := by
  unfold counted at h
  split_ifs at h
  have hle := fixed_shorter h
  rw [List.length_drop] at hle
  omega

theorem bigAt_shorter {k : ℕ} {bytes rest : Bytes} {tok : Tok}
    (h : bigAt k bytes = some (tok,rest)) : rest.length ≤ bytes.length := by
  unfold bigAt at h
  cases hdrop : bytes.drop k with
  | nil =>
    rw [hdrop] at h
    cases h
  | cons sign digits =>
    rw [hdrop] at h
    have hle := fixed_shorter h
    have hlength := congrArg List.length hdrop
    rw [List.length_drop,List.length_cons] at hlength
    omega

theorem headBody_shorter {tag : Byte} {bytes rest : Bytes} {tok : Tok}
    (h : headBody tag bytes = some (tok,rest)) : rest.length ≤ bytes.length := by
  unfold headBody at h
  split at h <;> first
    | exact fixed_shorter h
    | exact counted_shorter h
    | exact bigAt_shorter h
    | skip
  · cases h
    exact Nat.le_refl _
  · cases h

theorem headAt_shorter {mem rest : Bytes} {tok : Tok} (h : headAt mem = some (tok,rest)) :
    rest.length < mem.length := by
  cases mem with
  | nil => cases h
  | cons tag bytes =>
    rw [List.length_cons]
    exact Nat.lt_succ_of_le (headBody_shorter h)

theorem headsWithin_enough {n m : ℕ} {mem : Bytes} (hn : mem.length ≤ n) (hm : mem.length ≤ m) :
    headsWithin n mem = headsWithin m mem := by
  induction n generalizing m mem with
  | zero =>
    have hnil : mem = [] := List.eq_nil_of_length_eq_zero (Nat.le_zero.mp hn)
    subst hnil
    cases m <;> rfl
  | succ n ih =>
    cases m with
    | zero =>
      have hnil : mem = [] := List.eq_nil_of_length_eq_zero (Nat.le_zero.mp hm)
      subst hnil
      rfl
    | succ m =>
      unfold headsWithin
      cases hhead : headAt mem with
      | none => rfl
      | some r =>
        have hlt := headAt_shorter hhead
        have hsame : headsWithin n r.2 = headsWithin m r.2 := ih (by omega) (by omega)
        exact congrArg (r.1::·) hsame

theorem heads_cons {mem rest : Bytes} {tok : Tok} (h : headAt mem = some (tok,rest)) :
    heads mem = tok::heads rest := by
  have hlt := headAt_shorter h
  unfold heads
  rw [headsWithin_enough le_rfl (Nat.le_succ mem.length),headsWithin,h]
  exact congrArg (tok::·) (headsWithin_enough (by omega) le_rfl)

end Heads

section Written

theorem number_be {k n : ℕ} (h : n < 256^k) : number (be k n) = n := by
  induction k generalizing n with
  | zero =>
    rw [pow_zero] at h
    show 0 = n
    omega
  | succ k ih =>
    have hhigh : n/256 < 256^k := by
      rw [Nat.div_lt_iff_lt_mul (by omega)]
      rwa [pow_succ] at h
    unfold number at ih ⊢
    rw [be,List.foldl_append,ih hhigh]
    show 256*(n/256)+n%256 = n
    omega

theorem fixed_append {n : ℕ} (make : Bytes → Tok) {data : Bytes} (h : data.length = n)
    (rest : Bytes) : fixed n make (data ++ rest) = some (make data,rest) := by
  unfold fixed
  rw [if_neg (by rw [List.length_append]; omega),List.take_left' h,List.drop_left' h]

theorem fixed_be {k n : ℕ} (h : n < 256^k) (make : ℕ → Tok) (rest : Bytes) :
    fixed k (fun b => make (number b)) (be k n ++ rest) = some (make n,rest) := by
  rw [fixed_append _ (be_length k n),number_be h]

theorem fixed_count {n : ℕ} (h : n < 2^31) (make : ℕ → Tok) (rest : Bytes) :
    fixed 4 (fun b => make (intCount (number b))) (be 4 n ++ rest) = some (make n,rest) := by
  have hmake := fixed_be (k := 4) (n := n) (h.trans (by norm_num)) (fun n => make (intCount n)) rest
  have hcount : intCount n = n := if_pos h
  rwa [hcount] at hmake

theorem counted_sized {k : ℕ} (make : Bytes → Tok) {data : Bytes} (h : data.length < 256^k)
    (rest : Bytes) : counted k make (sized k data ++ rest) = some (make data,rest) := by
  unfold counted sized
  rw [List.append_assoc,if_neg (by rw [List.length_append,be_length]; omega),
    List.take_left' (be_length k _),List.drop_left' (be_length k _),number_be h]
  exact fixed_append make rfl rest

theorem bigAt_be {k : ℕ} (negative : Bool) {digits : Bytes} (h : digits.length < 256^k)
    (rest : Bytes) :
    bigAt k (be k digits.length ++ (if negative then 1 else 0)::digits ++ rest) =
      some (.big negative digits,rest) := by
  unfold bigAt
  rw [List.append_assoc,List.drop_left' (be_length k _),List.take_left' (be_length k _),
    number_be h]
  show fixed digits.length _ (digits ++ rest) = _
  rw [fixed_append _ rfl]
  cases negative <;> rfl

theorem signed32_be32 {i : ℤ} (h : -2^31 ≤ i ∧ i < 2^31) : signed32 (i%2^32).toNat = i := by
  unfold signed32
  split_ifs <;> omega

theorem latin1Chars_ascii {a : Byte} (h : a < 0x80) (rest : Bytes) :
    latin1Chars (a::rest) = Char.ofNat a.val::latin1Chars rest := by
  cases rest with
  | nil => exact if_pos h
  | cons b rest => exact if_pos h

theorem latin1Chars_utf8 {ch : Char} (h : isLatin1 ch = true) (rest : Bytes) :
    latin1Chars (utf8 ch.toNat ++ rest) = ch::latin1Chars rest := by
  have hlt : ch.toNat < 256 := of_decide_eq_true h
  unfold utf8
  by_cases hascii : ch.toNat < 0x80
  · have hval : (Fin.ofNat 256 ch.toNat).val = ch.toNat := Nat.mod_eq_of_lt hlt
    rw [if_pos hascii]
    show latin1Chars (Fin.ofNat 256 ch.toNat::rest) = _
    have hbyte : Fin.ofNat 256 ch.toNat < 0x80 := by
      show (Fin.ofNat 256 ch.toNat).val < 0x80
      omega
    rw [latin1Chars_ascii hbyte,hval,Char.ofNat_toNat]
  · have ha : (Fin.ofNat 256 (0xC0+ch.toNat/64)).val = 0xC0+ch.toNat/64 :=
      Nat.mod_eq_of_lt (by omega)
    have hb : (Fin.ofNat 256 (0x80+ch.toNat%64)).val = 0x80+ch.toNat%64 :=
      Nat.mod_eq_of_lt (by omega)
    rw [if_neg hascii,if_pos (by omega)]
    generalize Fin.ofNat 256 (0xC0+ch.toNat/64) = a at ha
    generalize Fin.ofNat 256 (0x80+ch.toNat%64) = b at hb
    show latin1Chars (a::b::rest) = _
    have hhigh : ¬a < 0x80 := by
      show ¬a.val < 0x80
      omega
    have hpair : (a = 0xC2 ∨ a = 0xC3) ∧ 0x80 ≤ b ∧ b < 0xC0 := by
      rw [Fin.ext_iff,Fin.ext_iff,ha]
      show (0xC0+ch.toNat/64 = 0xC2 ∨ 0xC0+ch.toNat/64 = 0xC3) ∧ 0x80 ≤ b.val ∧ b.val < 0xC0
      omega
    have hcode : (a.val-0xC0)*64+(b.val-0x80) = ch.toNat := by omega
    rw [latin1Chars,if_neg hhigh,if_pos hpair,hcode,Char.ofNat_toNat]

theorem latin1Chars_text {chars : List Char} (h : ∀ ch ∈ chars, isLatin1 ch = true) :
    latin1Chars (chars.flatMap (fun ch => utf8 ch.toNat)) = chars := by
  induction chars with
  | nil => rfl
  | cons ch chars ih =>
    obtain ⟨hch,htail⟩ := List.forall_mem_cons.mp h
    rw [List.flatMap_cons,latin1Chars_utf8 hch,ih htail]

/-- A head of a size that an `int` can hold, and no name with a wide character. -/
def Sent : Tok → Prop
  | .integer value => -2^31 ≤ value ∧ value < 2^31
  | .big _ digits => digits.length < 2^32
  | .float bits => bits < 2^64
  | .atom name => (textBytes name).length < 2^16 ∧ ∀ ch ∈ name.toList, isLatin1 ch = true
  | .tuple arity => arity < 2^31
  | .string chars => chars.length < 2^16
  | .list length => length < 2^31
  | .binary data => data.length < 2^32
  | .map arity => arity < 2^32
  | .other _ _ _ => False
  | _ => True

theorem headAt_big (negative : Bool) {digits : Bytes} (h : digits.length < 2^32) (rest : Bytes) :
    headAt ((Tok.big negative digits).bytes ++ rest) = some (.big negative digits,rest) := by
  by_cases hshort : digits.length < 256
  · have hbytes : (Tok.big negative digits).bytes =
        110::(be 1 digits.length ++ (if negative then 1 else 0)::digits) := by
      simp only [Tok.bytes,Tok.tag,Tok.body,hshort,if_true]
    rw [hbytes]
    exact bigAt_be (k := 1) negative hshort rest
  · have hbytes : (Tok.big negative digits).bytes =
        111::(be 4 digits.length ++ (if negative then 1 else 0)::digits) := by
      simp only [Tok.bytes,Tok.tag,Tok.body,hshort,if_false]
    rw [hbytes]
    exact bigAt_be (k := 4) negative h rest

theorem headAt_atom {name : String} (h : (textBytes name).length < 2^16)
    (hlatin : ∀ ch ∈ name.toList, isLatin1 ch = true) (rest : Bytes) :
    headAt ((Tok.atom name).bytes ++ rest) = some (.atom name,rest) := by
  have hname : utf8Atom (textBytes name) = .atom name := by
    unfold utf8Atom textBytes
    rw [latin1Chars_text hlatin,String.ofList_toList]
  by_cases hshort : (textBytes name).length < 256
  · have hbytes : (Tok.atom name).bytes = 119::sized 1 (textBytes name) := by
      simp only [Tok.bytes,Tok.tag,Tok.body,hshort,if_true]
    rw [hbytes,← hname]
    exact counted_sized (k := 1) utf8Atom hshort rest
  · have hbytes : (Tok.atom name).bytes = 118::sized 2 (textBytes name) := by
      simp only [Tok.bytes,Tok.tag,Tok.body,hshort,if_false]
    rw [hbytes,← hname]
    exact counted_sized (k := 2) utf8Atom h rest

theorem headAt_tuple {arity : ℕ} (h : arity < 2^31) (rest : Bytes) :
    headAt ((Tok.tuple arity).bytes ++ rest) = some (.tuple arity,rest) := by
  by_cases hshort : arity < 256
  · have hbytes : (Tok.tuple arity).bytes = 104::be 1 arity := by
      simp only [Tok.bytes,Tok.tag,Tok.body,hshort,if_true]
    rw [hbytes]
    exact fixed_be (k := 1) hshort _ rest
  · have hbytes : (Tok.tuple arity).bytes = 105::be 4 arity := by
      simp only [Tok.bytes,Tok.tag,Tok.body,hshort,if_false]
    rw [hbytes]
    exact fixed_count h .tuple rest

/-- The lexer reads back what the encoder writes. -/
theorem headAt_bytes {tok : Tok} (h : Sent tok) (rest : Bytes) :
    headAt (tok.bytes ++ rest) = some (tok,rest) := by
  cases tok with
  | smallInteger value => rfl
  | integer value =>
    have hmake := fixed_be (k := 4) (n := (value%2^32).toNat) (by omega)
      (fun n => .integer (signed32 n)) rest
    rw [signed32_be32 h] at hmake
    exact hmake
  | big negative digits => exact headAt_big negative h rest
  | float bits => exact fixed_be (k := 8) h _ rest
  | atom name => exact headAt_atom h.1 h.2 rest
  | tuple arity => exact headAt_tuple h rest
  | nil => rfl
  | string chars => exact counted_sized .string (show chars.length < 256^2 from h) rest
  | list length => exact fixed_count h .list rest
  | binary data => exact counted_sized .binary (show data.length < 256^4 from h) rest
  | map arity => exact fixed_be (k := 4) h _ rest
  | other => exact h.elim

theorem heads_sent {toks : List Tok} (h : ∀ tok ∈ toks, Sent tok) (rest : Bytes) :
    heads (toks.flatMap Tok.bytes ++ rest) = toks ++ heads rest := by
  induction toks with
  | nil => rfl
  | cons tok toks ih =>
    obtain ⟨htok,htail⟩ := List.forall_mem_cons.mp h
    rw [List.flatMap_cons,List.append_assoc,heads_cons (headAt_bytes htok _),ih htail]
    rfl

end Written

section Rounds
variable (env : PortEnv)

/-- The handlers whose arrays are looked at here. -/
def listed : Command → Port Unit
  | .keyPut => callKeyPut env
  | .keyInc => callKeyInc env
  | .keyGet => callKeyGet env
  | .keySelect => callKeySelect env
  | _ => stop .returned

/-- What a round of the loop in `main` decodes of the memory that begins with
the buffer. A frame that is no call is only noted. -/
def decodeFrame (handler : Command → Port Unit) : Bytes → Port Unit
  | 131::mem => do
    update (fun s => { s with index := heads mem })
    match ← decode eiDecodeTupleHeader with
    | some arity => if 0 < arity then functionCallBy handler commands arity else stop .returned
    | none => stop .returned
  | _ => ifail 0

/-- Reads a frame into the buffer of `main` and decodes it. Beyond the buffer
stands any memory. -/
def round (c : Chunking) (buf beyond : Bytes) (src : Source Byte) : Port Unit := fun s =>
  match readCmd c buf src with
  | .error f => (.error (.fault f),s)
  | .ok (len,buf',_) =>
    if 0 < len then decodeFrame (listed env) (buf' ++ beyond) s else (.ok (),s)

/-- Nothing has been stored beyond an array. -/
def Inside (r : Except Leave Unit × PortState) : Prop := r.1 ≠ .error (.fault .bufferOverflow)

/-- The array of `main`, whatever it holds. -/
abbrev MainBuffer := {buf : Bytes // buf.length = bufSize}

/-- What the two length bytes allow. -/
abbrev FramePayload := {p : Bytes // p.length < 65536}

/-- However the frame arrives and whatever follows it. -/
def StoresInside (s : PortState) (buf : MainBuffer) (payload : FramePayload) (beyond : Bytes) :
    Prop :=
  ∀ (c : Chunking) (calls : ℕ) (rest : Bytes),
    Inside (round env c buf.val beyond ⟨calls,frame twoBytes payload.val ++ rest⟩ s)

/-- The frame decodes as it does among heads. -/
theorem decodeFrame_process {s : PortState} {arity : ℕ} {toks : List Tok} {behind : Bytes}
    (hsent : ∀ tok ∈ Tok.tuple arity::toks, Sent tok) (harity : 0 < arity)
    (hwidth : 1+ReplyFrames.width (.tuple arity::toks) ≤ bufSize) :
    decodeFrame (Command.call env) (131::((Tok.tuple arity::toks).flatMap Tok.bytes ++ behind)) s =
      processFrame env (.tuple arity::toks) ⟨heads behind,behind⟩ s := by
  have hheads := heads_sent hsent behind
  have hroom : ¬bufSize < 1+((Tok.tuple arity::toks).flatMap Tok.bytes).length :=
    not_lt.mpr hwidth
  show (do
    match ← decode eiDecodeTupleHeader with
    | some arity =>
      if 0 < arity then functionCallBy (Command.call env) commands arity else stop .returned
    | none => stop .returned : Port Unit) (s.goto (heads _)) = _
  unfold processFrame
  rw [hheads,if_neg hroom,update_bind_run]
  show _ = (do
    match ← decode eiDecodeTupleHeader with
    | some arity => if 0 < arity then functionCall env arity else noteIndex behind
    | none => noteIndex behind : Port Unit) (s.goto (.tuple arity::(toks ++ heads behind)))
  have hread : decode eiDecodeTupleHeader (s.goto (.tuple arity::(toks ++ heads behind))) =
      (.ok (some arity),s.goto (toks ++ heads behind)) := decode_some rfl
  rw [bind_run_ok _ hread]
  show ((do
    match ← decode eiDecodeTupleHeader with
    | some arity =>
      if 0 < arity then functionCallBy (Command.call env) commands arity else stop .returned
    | none => stop .returned : Port Unit) (s.goto (.tuple arity::(toks ++ heads behind)))) = _
  rw [bind_run_ok _ hread]
  show (if 0 < arity then functionCallBy (Command.call env) commands arity else stop .returned)
    (s.goto _) = (if 0 < arity then functionCall env arity else noteIndex behind) (s.goto _)
  rw [if_pos harity,if_pos harity,functionCall_by]

end Rounds

section Handlers
variable {env : PortEnv} {s : PortState}

theorem inside_judges (s : PortState) : Judges Inside (fun _ => True) s :=
  ⟨fun _ _ _ h => (nomatch h : False),fun _ h => h rfl⟩

theorem inside_request {req : Request} {g : Response → Port Unit}
    (hg : ∀ r t, Inside (g r t)) : Inside ((request env req >>= g) s) :=
  (judge_request (p := fun _ => True) (inside_judges _) trivial
    (fun r => iff_true_intro (hg r _))).mpr (fun _ => trivial)

theorem inside_sent (length : ℕ) (req : Request) (s : PortState) :
    Inside ((if 0 < length then
        request env req >>= fun _ => okMacro (textBytes "key_put") >>= fun _ => postMacro
      else okMacro (textBytes "key_put") >>= fun _ => postMacro) s) := by
  split_ifs
  · exact inside_request (fun _ _ h => nomatch h)
  · exact fun h => nomatch h

theorem dumpRecords_written (c : Client) (record : Option Record) :
    ∃ toks, dumpRecords c record = .ok toks := by
  unfold dumpRecords dumpWith
  cases record with
  | none => exact ⟨_,rfl⟩
  | some rec =>
    obtain ⟨key,gen,ttl,bins⟩ := rec
    cases key with
    | some key => exact ⟨_,rfl⟩
    | none =>
      have hbins := writeEach_ok (g := fun bin => ((dumpBin c bin).toOption.getD [])) bins
        (fun bin _ => (rfl : dumpBin c bin = .ok ((dumpBin c bin).toOption.getD [])))
      simp only [hbins]
      exact ⟨_,rfl⟩

theorem inside_dump (c : Client) (record : Option Record) (s : PortState) :
    Inside ((orFault (dumpRecords c record) >>= fun toks => put toks >>= fun _ => postMacro) s) := by
  obtain ⟨toks,htoks⟩ := dumpRecords_written c record
  rw [htoks]
  exact fun h => nomatch h

theorem keyPut_inside (toks : List Tok) :
    Inside (callKeyPut env (s.goto toks)) ↔ KeyPairsFine s toks := by
  unfold callKeyPut KeyPairsFine
  rw [preMacro_bind_run]
  apply judge_key (inside_judges _) (fun _ _ => trivial)
  intro key rest
  apply judge_required (inside_judges _) trivial
  intro length rest
  apply judge_all (inside_judges (s.fresh.goto rest)) trivial trivial
  apply judge_pairs (inside_judges s.fresh) (fun _ _ => trivial)
  exact fun rec rest => inside_sent length (.keyPut key rec) _

theorem keyInc_inside (toks : List Tok) :
    Inside (callKeyInc env (s.goto toks)) ↔ KeyPairsFine s toks := by
  unfold callKeyInc KeyPairsFine
  rw [preMacro_bind_run]
  apply judge_key (inside_judges _) (fun _ _ => trivial)
  intro key rest
  apply judge_required (inside_judges _) trivial
  intro length rest
  apply judge_all (inside_judges (s.fresh.goto rest)) trivial trivial
  apply judge_pairs (inside_judges s.fresh) (fun _ _ => trivial)
  exact fun ops rest => inside_sent length (.keyOperate key ops none) _

theorem keyGet_inside (toks : List Tok) :
    Inside (callKeyGet env (s.goto toks)) ↔ KeyFine toks := by
  unfold callKeyGet KeyFine
  rw [preMacro_bind_run]
  apply judge_key (inside_judges _) (fun _ _ => trivial)
  intro key rest
  apply iff_true_intro
  apply (judge_all (inside_judges (s.fresh.goto rest)) trivial trivial (iff_true_intro _)).mpr
  · exact fun _ _ => trivial
  · exact inside_request (fun r t => inside_dump env.client r.record t)

/-- The names fit their arrays, and their pointers and the last one the array of pointers. -/
def SelectFits (s : PortState) : Cond :=
  ReadsKey fun _ => Reads eiDecodeListHeader fun length rest =>
    Served s (length ≠ 0 → NamesFit (fun _ => True) length [] rest)

theorem keySelect_inside (toks : List Tok) :
    Inside (callKeySelect env (s.goto toks)) ↔ SelectFits s toks := by
  unfold callKeySelect SelectFits
  rw [preMacro_bind_run]
  apply judge_key (inside_judges _) (fun _ _ => trivial)
  intro key rest
  apply judge_required (inside_judges _) trivial
  intro length rest
  apply judge_all (inside_judges (s.fresh.goto rest)) trivial trivial
  by_cases hlength : length = 0
  · rw [if_pos hlength]
    exact iff_of_true (fun h => nomatch h) (fun hne => absurd hlength hne)
  · rw [if_neg hlength,imp_iff_right hlength]
    apply judge_names (inside_judges s.fresh) trivial
    intro bins rest
    exact iff_true_intro (inside_request (fun r t => inside_dump env.client r.record t))

end Handlers

section Frames
variable {env : PortEnv} {s : PortState}

/-- Every text that the handler comes to fits its array. -/
def Fits (s : PortState) : Command → Cond
  | .keyPut => KeyPairsFine s
  | .keyInc => KeyPairsFine s
  | .keyGet => KeyFine
  | .keySelect => SelectFits s
  | _ => fun _ => True

def CallFits (s : PortState) (arity : ℕ) : Cond := fun toks =>
  (eiDecodeAtom toks).1 ≤ fnameSize ∧ ∀ fname rest, (eiDecodeAtom toks).2 = some (fname,rest) →
    ∀ cmd, commands.find? (checkName fname arity) = some cmd → Fits s cmd rest

def DecodeFits (s : PortState) : Bytes → Prop
  | 131::mem => Reads eiDecodeTupleHeader (fun arity toks => 0 < arity → CallFits s arity toks)
    (heads mem)
  | _ => True

/-- The frame fits the buffer, and what is decoded of it fits. -/
def FrameFits (s : PortState) (buf payload beyond : Bytes) : Prop :=
  payload.length ≤ bufSize ∧
    (payload ≠ [] → DecodeFits s (afterCmd buf payload ++ beyond))

theorem listed_inside (cmd : Command) (toks : List Tok) :
    Inside (listed env cmd (s.goto toks)) ↔ Fits s cmd toks := by
  cases cmd with
  | keyPut => exact keyPut_inside toks
  | keyInc => exact keyInc_inside toks
  | keyGet => exact keyGet_inside toks
  | keySelect => exact keySelect_inside toks
  | _ => exact iff_of_true (fun h => nomatch h) trivial

theorem call_inside (arity : ℕ) (toks : List Tok) :
    Inside (functionCallBy (listed env) commands arity (s.goto toks)) ↔ CallFits s arity toks := by
  unfold CallFits
  by_cases hsize : fnameSize < (eiDecodeAtom toks).1
  · rw [call_overflows hsize]
    exact iff_of_false ((inside_judges s).overflows _) (fun hc => absurd hc.1 (by omega))
  · rw [and_iff_right (by omega)]
    cases hread : (eiDecodeAtom toks).2 with
    | none =>
      rw [call_unread (by omega) hread]
      exact iff_of_true (fun h => nomatch h) (fun _ _ hc => nomatch hc)
    | some r =>
      rw [call_read (by omega) hread,forall_read_iff]
      cases commands.find? (checkName r.1 arity) with
      | none => exact iff_of_true (fun h => nomatch h) (fun _ hc => nomatch hc)
      | some cmd =>
        rw [forall_some_iff (p := fun cmd => Fits s cmd r.2)]
        exact listed_inside cmd r.2

theorem decode_inside (mem : Bytes) :
    Inside (decodeFrame (listed env) mem s) ↔ DecodeFits s mem := by
  unfold decodeFrame DecodeFits
  split
  · next mem =>
    rw [update_bind_run]
    show Inside ((decode eiDecodeTupleHeader >>= _) (s.goto (heads mem))) ↔ Reads _ _ (heads mem)
    unfold Reads
    cases hread : eiDecodeTupleHeader (heads mem) with
    | none =>
      rw [bind_run_ok _ (decode_none hread)]
      exact iff_of_true (fun h => nomatch h) (fun _ _ hc => nomatch hc)
    | some r =>
      rw [bind_run_ok _ (decode_some hread),forall_read_iff]
      show Inside ((if 0 < r.1 then functionCallBy (listed env) commands r.1
        else stop .returned) (s.goto r.2)) ↔ _
      by_cases harity : 0 < r.1
      · rw [if_pos harity,imp_iff_right harity]
        exact call_inside r.1 r.2
      · rw [if_neg harity]
        exact iff_of_true (fun h => nomatch h) (fun hpos => absurd hpos harity)
  · exact iff_of_true (fun h => nomatch h) trivial

theorem round_inside (c : Chunking) (buf : MainBuffer) (payload : FramePayload)
    (beyond rest : Bytes) (calls : ℕ) :
    Inside (round env c buf.val beyond ⟨calls,frame twoBytes payload.val ++ rest⟩ s) ↔
      FrameFits s buf.val payload.val beyond := by
  obtain ⟨buf,hbuf⟩ := buf
  obtain ⟨p,hp⟩ := payload
  have htwo : 2 ≤ buf.length := hbuf ▸ (by decide : 2 ≤ bufSize)
  unfold round FrameFits
  show _ ↔ p.length ≤ bufSize ∧ (p ≠ [] → DecodeFits s (afterCmd buf p ++ beyond))
  by_cases hlong : bufSize < p.length
  · rw [readCmd_overflows c hp htwo (hbuf ▸ hlong) rfl]
    exact iff_of_false ((inside_judges s).overflows _) (fun hc => absurd hc.1 (by omega))
  · rw [and_iff_right (by omega)]
    by_cases hnil : p = []
    · subst hnil
      obtain ⟨buf',src,hread⟩ := readCmd_empty c (s := ⟨calls,frame twoBytes [] ++ rest⟩) htwo rfl
      rw [hread]
      exact iff_of_true (fun h => nomatch h) (fun hne => absurd rfl hne)
    · rw [imp_iff_right hnil]
      obtain ⟨src,-,hread⟩ := readCmd_frame c (List.length_pos_iff.mpr hnil) hp htwo
        (by omega) (s := ⟨calls,frame twoBytes p ++ rest⟩) rfl
      rw [hread]
      show Inside (if (0:ℤ) < p.length then _ else _) ↔ _
      rw [if_pos (by exact_mod_cast List.length_pos_iff.mpr hnil)]
      exact decode_inside _

theorem stores_inside_iff (env : PortEnv) (s : PortState) (buf : MainBuffer)
    (payload : FramePayload) (beyond : Bytes) :
    StoresInside env s buf payload beyond ↔ FrameFits s buf.val payload.val beyond := by
  constructor
  · exact fun h => (round_inside .single buf payload beyond [] 0).mp (h .single 0 [])
  · exact fun h c calls rest => (round_inside c buf payload beyond rest calls).mpr h

end Frames

section Example

/-- `{key_put, "a", "b", "c", [{"0123456789abcdef", 1}]}` -/
def longNamePut : List Tok := [.tuple 5,.atom "key_put",.string [97],.string [98],.string [99],
  .list 1,.tuple 2,.string (textBytes "0123456789abcdef"),.smallInteger 1,.nil]

theorem longNamePut_sent : ∀ tok ∈ longNamePut, Sent tok := by
  simp only [longNamePut,List.forall_mem_cons,Sent]
  refine ⟨by decide,⟨by decide,List.all_eq_true.mp (by decide)⟩,by decide,by decide,by decide,by decide,by decide,
    by decide,trivial,trivial,?_⟩
  exact fun _ h => absurd h List.not_mem_nil

def longNameFrame : FramePayload := ⟨131::longNamePut.flatMap Tok.bytes,by decide⟩

def zeroBuffer : MainBuffer := ⟨List.replicate bufSize 0,List.length_replicate⟩

/-- A name of 16 characters and its zero go to an array of 16. -/
theorem long_name_overflows : ¬∀ (env : PortEnv) (s : PortState) (buf : MainBuffer)
    (payload : FramePayload) (beyond : Bytes), StoresInside env s buf payload beyond := by
  intro h
  have hinside := h plainPort connectedPort zeroBuffer longNameFrame [] .single 0 []
  have hdecode := ((round_inside .single zeroBuffer longNameFrame [] [] 0).mp hinside).2
    (List.cons_ne_nil _ _)
  have hmem : afterCmd zeroBuffer.val longNameFrame.val ++ [] =
      131::(longNamePut.flatMap Tok.bytes ++
        (overlay zeroBuffer.val 0 (twoBytes.header longNameFrame.val.length)).drop
          (0+longNameFrame.val.length)) := by
    rw [List.append_nil]
    rfl
  rw [hmem] at hdecode
  have hcall := hdecode 5 (longNamePut.tail ++ heads _)
    (congrArg eiDecodeTupleHeader (heads_sent longNamePut_sent _)) (by decide)
  generalize heads _ = more at hcall
  have hput : KeyPairsFine connectedPort (longNamePut.tail.tail ++ more) :=
    hcall.2 (textBytes "key_put") _ (by rfl) .keyPut (by decide)
  obtain ⟨-,hset⟩ := hput
  obtain ⟨-,hkey⟩ := hset [97] _ rfl
  obtain ⟨-,hlist⟩ := hkey [98] _ rfl
  have hpairs := hlist [99] _ rfl 1 _ rfl rfl rfl
  obtain ⟨hname,-⟩ := hpairs _ rfl
  exact absurd (show 17 ≤ 16 from hname) (by decide)

end Example

end AspikePort.PortStores
