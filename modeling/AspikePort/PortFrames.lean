import AspikePort.FramedStreams
import AspikePort.FrameReplies

/-!
# Frames on the descriptors of the port

The port reads commands from one descriptor and writes replies to another. Both
loops go on until all bytes have been moved, and the two bytes before a payload
hold its length, of which more does not fit.
-/

set_option autoImplicit false

namespace AspikePort.PortFrames
open AspikePort.ErlangTerms AspikePort.ClientValues AspikePort.FramedStreams
open AspikePort.ExternalTerms AspikePort.EiBuffers AspikePort.PortDumps AspikePort.PortCalls
open AspikePort.PortHandlers AspikePort.ReplyFrames
open AspikePort.PortPuts (signedChar)
open AspikePort.PortAgreement (connectedPort)
open AspikePort.FrameReplies (plainPort)
open EarlyReturn.Proc

section Commands

/-- A copy to `buf+got`. -/
def store (buf : Bytes) (got : ℕ) (chunk : Bytes) : Except Fault Bytes :=
  if buf.length < got+chunk.length then .error .bufferOverflow
  else .ok (buf.take got ++ chunk ++ buf.drop (got+chunk.length))

/-- The rounds of `read_exact` from the moment `got` bytes are there. -/
def readFrom (c : Chunking) (len got : ℕ) (buf : Bytes) (s : Source Byte) :
    Except Fault (ℤ × Bytes × Source Byte) :=
  if _h : (s.read c (len-got)).1 = [] then .ok (0,buf,(s.read c (len-got)).2)
  else
    match store buf got (s.read c (len-got)).1 with
    | .error e => .error e
    | .ok buf' =>
      if got+(s.read c (len-got)).1.length < len then
        readFrom c len (got+(s.read c (len-got)).1.length) buf' (s.read c (len-got)).2
      else .ok (len,buf',(s.read c (len-got)).2)
termination_by len-got
decreasing_by
  have hpos := List.length_pos_iff.mpr _h
  omega

def readExact (c : Chunking) (len : ℕ) (buf : Bytes) (s : Source Byte) :
    Except Fault (ℤ × Bytes × Source Byte) := readFrom c len 0 buf s

/-- The cast to `unsigned char`. -/
def unsignedChar (ch : ℤ) : ℕ := (ch%256).toNat

def bytesToU16 (msb lsb : ℤ) : ℕ := (unsignedChar msb &&& 255) <<< 8 ||| (unsignedChar lsb &&& 255)

/-- The elements of the buffer are plain `char`s. -/
def charAt (buf : Bytes) (i : ℕ) : ℤ := signedChar (buf.getD i 0)

def readCmd (c : Chunking) (buf : Bytes) (s : Source Byte) :
    Except Fault (ℤ × Bytes × Source Byte) := do
  let (got,buf,s) ← readExact c 2 buf s
  if got ≠ 2 then return (-1,buf,s)
  else readExact c (bytesToU16 (charAt buf 0) (charAt buf 1)) buf s

/-- What successive calls return and leave at the start of the buffer. -/
def readCmds (c : Chunking) : ℕ → Bytes → Source Byte →
    Except Fault (List (ℤ × Bytes) × Bytes × Source Byte)
  | 0, buf, s => .ok ([],buf,s)
  | n+1, buf, s => do
    let (len,buf,s) ← readCmd c buf s
    let (more,last,s) ← readCmds c n buf s
    return ((len,buf.take len.toNat)::more,last,s)

/-- The rounds of `write_exact` from the moment `wrote` bytes are gone. -/
def writeFrom (c : Chunking) (buf : Bytes) (wrote : ℕ) (s : Sink Byte) : ℤ × Sink Byte :=
  if _h : (s.write c (buf.drop wrote)).1 = 0 then (0,(s.write c (buf.drop wrote)).2)
  else if wrote+(s.write c (buf.drop wrote)).1 < buf.length then
    writeFrom c buf (wrote+(s.write c (buf.drop wrote)).1) (s.write c (buf.drop wrote)).2
  else (buf.length,(s.write c (buf.drop wrote)).2)
termination_by buf.length-wrote
decreasing_by
  have hpos := Nat.pos_of_ne_zero _h
  omega

def writeExact (c : Chunking) (buf : Bytes) (s : Sink Byte) : ℤ × Sink Byte := writeFrom c buf 0 s

/-- What the writes of the two length bytes return is not looked at. -/
def writeCmd (c : Chunking) (buf : Bytes) (s : Sink Byte) : ℤ × Sink Byte :=
  let s := (writeExact c [Fin.ofNat 256 (buf.length >>> 8 &&& 0xff)] s).2
  let s := (writeExact c [Fin.ofNat 256 (buf.length &&& 0xff)] s).2
  writeExact c buf s

def writeCmds (c : Chunking) (replies : List Bytes) (s : Sink Byte) : Sink Byte :=
  replies.foldl (fun s buf => (writeCmd c buf s).2) s

end Commands

section Lengths

/-- The length of a payload, the high byte first. -/
def twoBytes : LengthCode Byte where
  width := 2
  limit := 65536
  header := fun n => [Fin.ofNat 256 (n/256),Fin.ofNat 256 n]
  size := fun h => h.foldl (fun n b => 256*n+b.val) 0
  width_pos := by decide
  length_header := fun _ => rfl
  size_header := by
    intro n hn
    show 256*(256*0+n/256%256)+n%256 = n
    omega
  size_lt := by
    intro xs hxs
    obtain ⟨a,b,rfl⟩ := List.length_eq_two.mp hxs
    show 256*(256*0+a.val)+b.val < 65536
    omega

theorem and_byte (n : ℕ) : n &&& 255 = n%256 := Nat.and_two_pow_sub_one_eq_mod n 8

theorem shift_byte (n : ℕ) : n >>> 8 = n/256 := Nat.shiftRight_eq_div_pow n 8

theorem unsigned_signed (b : Byte) : unsignedChar (signedChar b) = b.val := by
  unfold unsignedChar signedChar
  split_ifs <;> omega

theorem bytesToU16_chars (a b : Byte) :
    bytesToU16 (signedChar a) (signedChar b) = twoBytes.size [a,b] := by
  rw [bytesToU16,unsigned_signed,unsigned_signed,and_byte,and_byte,
    Nat.mod_eq_of_lt a.isLt,Nat.mod_eq_of_lt b.isLt]
  have hor : a.val <<< 8 ||| b.val = a.val <<< 8+b.val :=
    (Nat.shiftLeft_add_eq_or_of_lt b.isLt a.val).symm
  rw [hor,Nat.shiftLeft_eq]
  show a.val*256+b.val = 256*(256*0+a.val)+b.val
  omega

theorem header_bytes (n : ℕ) :
    [Fin.ofNat 256 (n >>> 8 &&& 0xff)] ++ [Fin.ofNat 256 (n &&& 0xff)] = twoBytes.header n := by
  rw [shift_byte,and_byte,and_byte]
  have hmod : ∀ m : ℕ, Fin.ofNat 256 (m%256) = Fin.ofNat 256 m := fun m => Fin.ext (Nat.mod_mod m 256)
  rw [hmod,hmod]
  rfl

end Lengths

section Writing
variable (c : Chunking)

/-- The call returns the length of `buf`, and all of it has been sent. -/
def SendsAll (r : ℤ × Sink Byte) (s : Sink Byte) (buf sent : Bytes) : Prop :=
  r.1 = buf.length ∧ r.2.sent = s.sent ++ sent

theorem writeFrom_sends {buf : Bytes} {wrote : ℕ} (hwrote : wrote < buf.length) (s : Sink Byte) :
    SendsAll (writeFrom c buf wrote s) s buf (buf.drop wrote) := by
  induction hleft : buf.length-wrote using Nat.strong_induction_on generalizing wrote s with
  | _ left ih =>
    subst hleft
    have hlength : (buf.drop wrote).length = buf.length-wrote := List.length_drop
    have hpos : 0 < (s.write c (buf.drop wrote)).1 := c.positive _ _ (by omega)
    have hwithin : (s.write c (buf.drop wrote)).1 ≤ buf.length-wrote :=
      hlength ▸ c.within s.calls (buf.drop wrote).length
    have hsent : (s.write c (buf.drop wrote)).2.sent =
        s.sent ++ (buf.drop wrote).take (s.write c (buf.drop wrote)).1 := rfl
    rw [writeFrom,dif_neg (by omega)]
    split_ifs with hmore
    · obtain ⟨hlen,hrest⟩ := ih _ (by omega) hmore (s.write c (buf.drop wrote)).2 rfl
      refine ⟨hlen,?_⟩
      rw [hrest,hsent,List.append_assoc,← List.drop_drop,List.take_append_drop]
    · refine ⟨rfl,?_⟩
      show (s.write c (buf.drop wrote)).2.sent = _
      rw [hsent,List.take_of_length_le (by omega)]

theorem writeExact_sends {buf : Bytes} (hbuf : buf ≠ []) (s : Sink Byte) :
    SendsAll (writeExact c buf s) s buf buf :=
  writeFrom_sends c (List.length_pos_iff.mpr hbuf) s

theorem writeCmd_sends {buf : Bytes} (hbuf : buf ≠ []) (s : Sink Byte) :
    SendsAll (writeCmd c buf s) s buf (frame twoBytes buf) := by
  have hfirst := (writeExact_sends c (List.cons_ne_nil (Fin.ofNat 256 (buf.length >>> 8 &&& 0xff)) []) s).2
  have hsecond := (writeExact_sends c (List.cons_ne_nil (Fin.ofNat 256 (buf.length &&& 0xff)) [])
    (writeExact c [Fin.ofNat 256 (buf.length >>> 8 &&& 0xff)] s).2).2
  obtain ⟨hlen,hsent⟩ := writeExact_sends c hbuf (writeExact c [Fin.ofNat 256 (buf.length &&& 0xff)]
    (writeExact c [Fin.ofNat 256 (buf.length >>> 8 &&& 0xff)] s).2).2
  refine ⟨hlen,hsent.trans ?_⟩
  rw [hsecond,hfirst,frame,← header_bytes]
  simp only [List.append_assoc]

theorem writeCmds_sent {replies : List Bytes} (h : ∀ p ∈ replies, p ≠ []) (s : Sink Byte) :
    (writeCmds c replies s).sent = s.sent ++ stream twoBytes replies := by
  induction replies generalizing s with
  | nil => exact (List.append_nil _).symm
  | cons p replies ih =>
    obtain ⟨hp,htail⟩ := List.forall_mem_cons.mp h
    show (writeCmds c replies (writeCmd c p s).2).sent = _
    rw [ih htail,(writeCmd_sends c hp s).2,List.append_assoc]
    rfl

end Writing

section Reading
variable (c : Chunking)

/-- What the buffer holds after a copy that fits. -/
def overlay (buf : Bytes) (got : ℕ) (chunk : Bytes) : Bytes :=
  buf.take got ++ chunk ++ buf.drop (got+chunk.length)

theorem length_overlay {buf chunk : Bytes} {got : ℕ} (h : got+chunk.length ≤ buf.length) :
    (overlay buf got chunk).length = buf.length := by
  rw [overlay,List.length_append,List.length_append,List.length_take,List.length_drop]
  omega

theorem overlay_overlay {buf : Bytes} {got : ℕ} (hgot : got ≤ buf.length) (xs ys : Bytes) :
    overlay (overlay buf got xs) (got+xs.length) ys = overlay buf got (xs ++ ys) := by
  have hlen : (buf.take got ++ xs).length = got+xs.length := by
    rw [List.length_append,List.length_take,Nat.min_eq_left hgot]
  have htake : (overlay buf got xs).take (got+xs.length) = buf.take got ++ xs :=
    List.take_left' hlen
  have hdrop : (overlay buf got xs).drop (got+xs.length+ys.length) =
      buf.drop (got+(xs ++ ys).length) := by
    rw [overlay,← hlen,List.drop_length_add_append,hlen,List.drop_drop,List.length_append,Nat.add_assoc]
  rw [overlay,htake,hdrop,overlay,List.append_assoc (buf.take got) xs ys]

theorem overlay_nil (buf : Bytes) (got : ℕ) : overlay buf got [] = buf := by
  rw [overlay,List.append_nil]
  exact List.take_append_drop got buf

/-- One round of the loop, where the stream has not come to its end. -/
theorem readFrom_step {len got : ℕ} {buf : Bytes} {s : Source Byte} (hgot : got < len)
    (hbuf : len ≤ buf.length) (hs : s.pending ≠ []) :
    let r := s.read c (len-got)
    0 < r.1.length ∧ r.1.length ≤ len-got ∧ readFrom c len got buf s =
      if got+r.1.length < len then readFrom c len (got+r.1.length) (overlay buf got r.1) r.2
      else .ok ((len:ℤ),overlay buf got r.1,r.2) := by
  intro r
  have hle : r.1.length ≤ len-got := (length_read_le c s).trans (Nat.min_le_left _ _)
  have hsome : r.1 ≠ [] := by
    rw [Ne,read_eq_nil_iff]
    rintro (hnone | hnone)
    · omega
    · exact hs hnone
  have hstore : store buf got r.1 = .ok (overlay buf got r.1) := if_neg (by omega)
  refine ⟨List.length_pos_iff.mpr hsome,hle,?_⟩
  rw [readFrom,dif_neg hsome,hstore]

theorem readFrom_full {len got : ℕ} {buf xs rest : Bytes} {s : Source Byte}
    (hs : s.pending = xs ++ rest) (hxs : got+xs.length = len) (hpos : 0 < xs.length)
    (hbuf : len ≤ buf.length) :
    ∃ s', readFrom c len got buf s = .ok ((len:ℤ),overlay buf got xs,s') ∧ s'.pending = rest := by
  induction hleft : xs.length using Nat.strong_induction_on generalizing got buf xs s with
  | _ left ih =>
    subst hleft
    have hsome : s.pending ≠ [] := by
      rw [hs]
      exact List.append_ne_nil_of_left_ne_nil (List.length_pos_iff.mp hpos) _
    have hgot : got < len := by omega
    obtain ⟨hchunk,hle,hstep⟩ := readFrom_step c hgot hbuf hsome
    obtain ⟨hsplit,hpending⟩ := read_takes c s hs (n := len-got) (by omega)
    generalize s.read c (len-got) = r at hchunk hle hstep hsplit hpending
    have hlength := congrArg List.length hsplit
    rw [List.length_append] at hlength
    rw [hstep]
    split_ifs with hmore
    · have hmeets : got+r.1.length+(xs.drop r.1.length).length = len := by omega
      have hroom : len ≤ (overlay buf got r.1).length := by rwa [length_overlay (by omega)]
      obtain ⟨s',hread,hrest⟩ := ih _ (by omega) hpending hmeets (by omega) hroom rfl
      refine ⟨s',?_,hrest⟩
      rw [hread,overlay_overlay (by omega),← hsplit]
    · have hnil : xs.drop r.1.length = [] := List.drop_of_length_le (by omega)
      rw [hnil] at hsplit hpending
      rw [List.append_nil] at hsplit
      exact ⟨r.2,by rw [hsplit],hpending⟩

theorem readFrom_short {len got : ℕ} {buf : Bytes} {s : Source Byte}
    (hs : got+s.pending.length < len) (hbuf : len ≤ buf.length) :
    ∃ s', readFrom c len got buf s = .ok ((0:ℤ),overlay buf got s.pending,s') ∧
      s'.pending = [] := by
  induction hleft : s.pending.length using Nat.strong_induction_on generalizing got buf s with
  | _ left ih =>
    subst hleft
    by_cases hsome : s.pending = []
    · have hread : (s.read c (len-got)).1 = [] := (read_eq_nil_iff c s).mpr (.inr hsome)
      refine ⟨(s.read c (len-got)).2,?_,?_⟩
      · rw [readFrom,dif_pos hread,hsome,overlay_nil]
      · have happend := read_append (n := len-got) c s
        rwa [hread,hsome] at happend
    · have hgot : got < len := by omega
      obtain ⟨hchunk,hle,hstep⟩ := readFrom_step c hgot hbuf hsome
      have happend := read_append (n := len-got) c s
      generalize s.read c (len-got) = r at hchunk hle hstep happend
      have hlength := congrArg List.length happend
      rw [List.length_append] at hlength
      have hshort : got+r.1.length+r.2.pending.length < len := by omega
      have hroom : len ≤ (overlay buf got r.1).length := by rwa [length_overlay (by omega)]
      obtain ⟨s',hread,hrest⟩ := ih _ (by omega) hshort hroom rfl
      rw [hstep,if_pos (by omega)]
      refine ⟨s',?_,hrest⟩
      rw [hread,overlay_overlay (by omega),happend]

/-- More than the buffer has room for. -/
theorem readFrom_overflows {len got : ℕ} {buf xs rest : Bytes} {s : Source Byte}
    (hs : s.pending = xs ++ rest) (hxs : got+xs.length = len) (hgot : got ≤ buf.length)
    (hover : buf.length < len) : readFrom c len got buf s = .error .bufferOverflow := by
  induction hleft : xs.length using Nat.strong_induction_on generalizing got buf xs s with
  | _ left ih =>
    subst hleft
    have hsome : (s.read c (len-got)).1 ≠ [] := by
      rw [Ne,read_eq_nil_iff,hs]
      rintro (hnone | hnone)
      · omega
      · rw [List.append_eq_nil_iff] at hnone
        rw [hnone.1,List.length_nil] at hxs
        omega
    have hpos := List.length_pos_iff.mpr hsome
    obtain ⟨hsplit,hpending⟩ := read_takes c s hs (n := len-got) (by omega)
    rw [readFrom,dif_neg hsome]
    generalize s.read c (len-got) = r at hpos hsplit hpending ⊢
    have hlength := congrArg List.length hsplit
    rw [List.length_append] at hlength
    by_cases hstore : buf.length < got+r.1.length
    · rw [store,if_pos hstore]
    · have hstored : store buf got r.1 = .ok (overlay buf got r.1) := if_neg hstore
      have hroom : (overlay buf got r.1).length = buf.length := length_overlay (by omega)
      rw [hstored]
      show (if got+r.1.length < len then _ else _) = _
      rw [if_pos (by omega)]
      exact ih _ (by omega) hpending (by omega) (by omega) (by omega) rfl

/-- What `read_cmd` leaves in the buffer. -/
def afterCmd (buf p : Bytes) : Bytes := overlay (overlay buf 0 (twoBytes.header p.length)) 0 p

theorem afterCmd_length {buf p : Bytes} (hbuf : 2 ≤ buf.length) (hp : p.length ≤ buf.length) :
    (afterCmd buf p).length = buf.length := by
  have hheader : (overlay buf 0 (twoBytes.header p.length)).length = buf.length :=
    length_overlay (by rw [twoBytes.length_header]; exact hbuf)
  rw [afterCmd,length_overlay (by omega),hheader]

theorem afterCmd_take (buf p : Bytes) : (afterCmd buf p).take p.length = p := by
  rw [afterCmd,overlay,List.take_zero,List.nil_append,List.take_left]

theorem header_read {buf p : Bytes} (hp : p.length < 65536) :
    bytesToU16 (charAt (overlay buf 0 (twoBytes.header p.length)) 0)
      (charAt (overlay buf 0 (twoBytes.header p.length)) 1) = p.length :=
  (bytesToU16_chars _ _).trans (twoBytes.size_header _ hp)

/-- The first two bytes are a header, and the payload is read next. -/
theorem readCmd_header {buf p rest : Bytes} {s : Source Byte} (hp : p.length < 65536)
    (hbuf : 2 ≤ buf.length) (hs : s.pending = twoBytes.header p.length ++ rest) :
    ∃ s', s'.pending = rest ∧ readCmd c buf s =
      readFrom c p.length 0 (overlay buf 0 (twoBytes.header p.length)) s' := by
  have hwidth : 0+(twoBytes.header p.length).length = 2 := rfl
  obtain ⟨s',hread,hrest⟩ := readFrom_full c hs hwidth Nat.zero_lt_two hbuf
  refine ⟨s',hrest,?_⟩
  have hsize := @header_read buf p hp
  generalize overlay buf 0 (twoBytes.header p.length) = b at hread hsize ⊢
  unfold readCmd readExact
  rw [hread]
  show (if ((2:ℕ):ℤ) ≠ 2 then pure (-1,b,s')
    else readFrom c (bytesToU16 (charAt b 0) (charAt b 1)) 0 b s') = _
  rw [if_neg (by decide),hsize]

theorem readCmd_frame {buf p rest : Bytes} {s : Source Byte} (hpos : 0 < p.length)
    (hp : p.length < 65536) (hbuf : 2 ≤ buf.length) (hroom : p.length ≤ buf.length)
    (hs : s.pending = frame twoBytes p ++ rest) :
    ∃ s', s'.pending = rest ∧ readCmd c buf s = .ok ((p.length:ℤ),afterCmd buf p,s') := by
  rw [frame,List.append_assoc] at hs
  obtain ⟨s₁,hs₁,hread⟩ := readCmd_header c hp hbuf hs
  have hlength : (overlay buf 0 (twoBytes.header p.length)).length = buf.length :=
    length_overlay hbuf
  obtain ⟨s₂,hfull,hrest⟩ := readFrom_full c hs₁ (Nat.zero_add _) hpos (hlength.symm ▸ hroom)
  exact ⟨s₂,hrest,hread.trans hfull⟩

/-- A frame without payload ends like the stream. -/
theorem readCmd_empty {buf rest : Bytes} {s : Source Byte} (hbuf : 2 ≤ buf.length)
    (hs : s.pending = frame twoBytes [] ++ rest) :
    ∃ buf' s', readCmd c buf s = .ok ((0:ℤ),buf',s') := by
  obtain ⟨s₁,-,hread⟩ := readCmd_header c (p := []) (by decide) hbuf hs
  have hend : (s₁.read c (0-0)).1 = [] := (read_eq_nil_iff c s₁).mpr (.inl rfl)
  rw [List.length_nil,readFrom,dif_pos hend] at hread
  exact ⟨_,_,hread⟩

theorem readCmd_overflows {buf p rest : Bytes} {s : Source Byte} (hp : p.length < 65536)
    (hbuf : 2 ≤ buf.length) (hover : buf.length < p.length)
    (hs : s.pending = frame twoBytes p ++ rest) : readCmd c buf s = .error .bufferOverflow := by
  rw [frame,List.append_assoc] at hs
  obtain ⟨s₁,hs₁,hread⟩ := readCmd_header c hp hbuf hs
  have hlength : (overlay buf 0 (twoBytes.header p.length)).length = buf.length :=
    length_overlay hbuf
  rw [hread,readFrom_overflows c hs₁ (Nat.zero_add _) (Nat.zero_le _) (hlength.symm ▸ hover)]

/-- A stream that ends before the frame does. -/
theorem readCmd_cut {buf p part : Bytes} {s : Source Byte} (hp : p.length < 65536)
    (hbuf : 2 ≤ buf.length) (hroom : p.length ≤ buf.length) (hpart : part <+: frame twoBytes p)
    (hcut : part.length < (frame twoBytes p).length) (hs : s.pending = part) :
    ∃ len buf' s', readCmd c buf s = .ok (len,buf',s') ∧ len ≤ 0 := by
  by_cases hheader : part.length < 2
  · have hshort : 0+s.pending.length < 2 := by rw [hs]; omega
    obtain ⟨s',hread,-⟩ := readFrom_short c hshort hbuf
    refine ⟨-1,overlay buf 0 s.pending,s',?_,by decide⟩
    unfold readCmd readExact
    rw [hread]
    rfl
  · obtain ⟨q,rfl⟩ : twoBytes.header p.length <+: part :=
      List.prefix_of_prefix_length_le (List.prefix_append _ p) hpart (not_lt.mp hheader)
    obtain ⟨s₁,hs₁,hread⟩ := readCmd_header c hp hbuf hs
    rw [length_frame,List.length_append,twoBytes.length_header] at hcut
    have hlength : (overlay buf 0 (twoBytes.header p.length)).length = buf.length :=
      length_overlay hbuf
    have hshort : 0+s₁.pending.length < p.length := by rw [hs₁]; omega
    obtain ⟨s₂,hzero,-⟩ := readFrom_short c hshort (hlength.symm ▸ hroom)
    exact ⟨0,_,s₂,hread.trans hzero,le_rfl⟩

theorem readFrom_consumes {len got : ℕ} {buf buf' : Bytes} {s s' : Source Byte} {n : ℤ}
    (h : readFrom c len got buf s = .ok (n,buf',s')) :
    s'.pending.length ≤ s.pending.length ∧ (0 < n → s'.pending.length < s.pending.length) := by
  fun_induction readFrom c len got buf s with
  | case1 got buf s hend =>
    cases h
    have happend := congrArg List.length (read_append (n := len-got) c s)
    rw [List.length_append] at happend
    exact ⟨by omega,fun hn => absurd hn (by decide)⟩
  | case2 => cases h
  | case3 got buf s hsome buf₁ hstore hmore ih =>
    have happend := congrArg List.length (read_append (n := len-got) c s)
    rw [List.length_append] at happend
    have hpos := List.length_pos_iff.mpr hsome
    have hle := (ih h).1
    omega
  | case4 got buf s hsome buf₁ hstore hmore =>
    cases h
    have happend := congrArg List.length (read_append (n := len-got) c s)
    rw [List.length_append] at happend
    have hpos := List.length_pos_iff.mpr hsome
    omega

theorem readCmd_consumes {buf buf' : Bytes} {s s' : Source Byte} {n : ℤ}
    (h : readCmd c buf s = .ok (n,buf',s')) (hn : 0 < n) :
    s'.pending.length < s.pending.length := by
  unfold readCmd readExact at h
  cases hread : readFrom c 2 0 buf s with
  | error e =>
    rw [hread] at h
    cases h
  | ok r =>
    obtain ⟨got,buf₁,s₁⟩ := r
    rw [hread] at h
    replace h : (if got ≠ 2 then pure (-1,buf₁,s₁)
      else readFrom c (bytesToU16 (charAt buf₁ 0) (charAt buf₁ 1)) 0 buf₁ s₁) = .ok (n,buf',s') := h
    split_ifs at h with hgot
    · cases h
      exact absurd hn (by decide)
    · exact ((readFrom_consumes c h).2 hn).trans_le (readFrom_consumes c hread).1

end Reading

section Loop
variable (c : Chunking)

/-- The loop of `main`. A round leaves the loop by `exit`, or it goes on. -/
def mainLoop {σ : Type} (body : σ → Bytes → Option σ) (st : σ) (buf : Bytes)
    (s : Source Byte) : Except Fault (Option σ) :=
  match _h : readCmd c buf s with
  | .error e => .error e
  | .ok (len,buf',s') =>
    if _hpos : 0 < len then
      match body st buf' with
      | some st' => mainLoop body st' buf' s'
      | none => .ok none
    else .ok (some st)
termination_by s.pending.length
decreasing_by exact readCmd_consumes c _h _hpos

/-- The payload has a size that two bytes hold, and the buffer has room for it. -/
structure Readable (room : ℕ) (p : Bytes) : Prop where
  positive : 0 < p.length
  short : p.length < 65536
  fits : p.length ≤ room

/-- The buffer as the rounds of the loop find it. -/
def buffers : Bytes → List Bytes → List Bytes
  | _, [] => []
  | buf, p::ps => afterCmd buf p::buffers (afterCmd buf p) ps

variable {c}

theorem mainLoop_round {σ : Type} {body : σ → Bytes → Option σ} {st : σ} {buf buf' : Bytes}
    {s s' : Source Byte} {len : ℤ} (h : readCmd c buf s = .ok (len,buf',s')) :
    mainLoop c body st buf s =
      if 0 < len then
        match body st buf' with
        | some st' => mainLoop c body st' buf' s'
        | none => .ok none
      else .ok (some st) := by
  rw [mainLoop]
  split
  · next e he =>
    rw [h] at he
    cases he
  · next len₁ buf₁ s₁ hread =>
    rw [h] at hread
    cases hread
    split_ifs <;> rfl

theorem readCmds_frames {frames : List Bytes} {rest : Bytes} (n : ℕ) {buf : Bytes}
    {s : Source Byte} (hbuf : 2 ≤ buf.length) (hframes : ∀ p ∈ frames, Readable buf.length p)
    (hs : s.pending = stream twoBytes frames ++ rest) :
    ∃ s', s'.pending = rest ∧ readCmds c (n+frames.length) buf s = do
      let (more,last,s) ← readCmds c n (frames.foldl afterCmd buf) s'
      return (frames.map (fun p => ((p.length:ℤ),p)) ++ more,last,s) := by
  induction frames generalizing buf s with
  | nil =>
    refine ⟨s,hs,?_⟩
    rw [List.length_nil,Nat.add_zero,List.foldl_nil]
    cases readCmds c n buf s <;> rfl
  | cons p frames ih =>
    obtain ⟨hp,htail⟩ := List.forall_mem_cons.mp hframes
    rw [stream,List.flatMap_cons,List.append_assoc] at hs
    obtain ⟨s₁,hs₁,hread⟩ := readCmd_frame c hp.positive hp.short hbuf hp.fits hs
    have hlength := afterCmd_length hbuf hp.fits
    obtain ⟨s',hs',hmore⟩ := ih (hlength.symm ▸ hbuf) (hlength.symm ▸ htail) hs₁
    refine ⟨s',hs',?_⟩
    show (do
      let (len,buf,s) ← readCmd c buf s
      let (more,last,s) ← readCmds c (n+frames.length) buf s
      return ((len,buf.take len.toNat)::more,last,s)) = _
    rw [hread]
    show (do
      let (more,last,s) ← readCmds c (n+frames.length) (afterCmd buf p) s₁
      return (((p.length:ℤ),(afterCmd buf p).take p.length)::more,last,s)) = _
    rw [hmore,afterCmd_take,List.foldl_cons]
    cases readCmds c n (frames.foldl afterCmd (afterCmd buf p)) s' <;> rfl

theorem mainLoop_frames {σ : Type} (body : σ → Bytes → Option σ) (st : σ) {frames : List Bytes}
    {rest buf : Bytes} {s : Source Byte} (hbuf : 2 ≤ buf.length)
    (hframes : ∀ p ∈ frames, Readable buf.length p)
    (hs : s.pending = stream twoBytes frames ++ rest) :
    ∃ s', s'.pending = rest ∧ mainLoop c body st buf s =
      match (buffers buf frames).foldlM body st with
      | some st' => mainLoop c body st' (frames.foldl afterCmd buf) s'
      | none => .ok none := by
  induction frames generalizing buf s st with
  | nil => exact ⟨s,hs,rfl⟩
  | cons p frames ih =>
    obtain ⟨hp,htail⟩ := List.forall_mem_cons.mp hframes
    rw [stream,List.flatMap_cons,List.append_assoc] at hs
    obtain ⟨s₁,hs₁,hread⟩ := readCmd_frame c hp.positive hp.short hbuf hp.fits hs
    have hlength := afterCmd_length hbuf hp.fits
    rw [mainLoop_round hread,if_pos (by exact_mod_cast hp.positive),buffers,List.foldlM_cons]
    cases body st (afterCmd buf p) with
    | none => exact ⟨⟨0,rest⟩,rfl,rfl⟩
    | some st' => exact ih st' (hlength.symm ▸ hbuf) (hlength.symm ▸ htail) hs₁

theorem foldl_afterCmd_length {frames : List Bytes} {buf : Bytes} (hbuf : 2 ≤ buf.length)
    (hframes : ∀ p ∈ frames, Readable buf.length p) :
    (frames.foldl afterCmd buf).length = buf.length := by
  induction frames generalizing buf with
  | nil => rfl
  | cons p frames ih =>
    obtain ⟨hp,htail⟩ := List.forall_mem_cons.mp hframes
    have hlength := afterCmd_length hbuf hp.fits
    rw [List.foldl_cons,ih (hlength.symm ▸ hbuf) (hlength.symm ▸ htail),hlength]

theorem frames_read (c : Chunking) (frames : List Bytes) (buf : Bytes) (calls : ℕ)
    (hbuf : 2 ≤ buf.length) (hframes : ∀ p ∈ frames, Readable buf.length p) :
    (∀ rest, ∃ last s', s'.pending = rest ∧
      readCmds c frames.length buf ⟨calls,stream twoBytes frames ++ rest⟩ =
        .ok (frames.map (fun p => ((p.length:ℤ),p)),last,s')) ∧
    ∀ p part, p.length < 65536 → p.length ≤ buf.length → part <+: frame twoBytes p →
      part.length < (frame twoBytes p).length →
      (∃ len left last s', len ≤ 0 ∧
        readCmds c (1+frames.length) buf ⟨calls,stream twoBytes frames ++ part⟩ =
          .ok (frames.map (fun p => ((p.length:ℤ),p)) ++ [(len,left)],last,s')) ∧
      ∀ (σ : Type) (body : σ → Bytes → Option σ) (st : σ),
        mainLoop c body st buf ⟨calls,stream twoBytes frames ++ part⟩ =
          .ok ((buffers buf frames).foldlM body st) := by
  constructor
  · intro rest
    obtain ⟨s',hs',hread⟩ := readCmds_frames (c := c) 0 hbuf hframes
      (s := ⟨calls,_⟩) rfl
    refine ⟨frames.foldl afterCmd buf,s',hs',?_⟩
    rw [Nat.zero_add] at hread
    rw [hread]
    show Except.ok (_ ++ [],_,_) = _
    rw [List.append_nil]
  · intro p part hp hroom hpart hcut
    have hlength := foldl_afterCmd_length hbuf hframes
    rw [← hlength] at hroom
    constructor
    · obtain ⟨s',hs',hread⟩ := readCmds_frames (c := c) 1 hbuf hframes
        (s := ⟨calls,_⟩) rfl
      obtain ⟨len,buf',s₁,hlast,hle⟩ := readCmd_cut c hp (hlength.symm ▸ hbuf) hroom hpart hcut hs'
      refine ⟨len,buf'.take len.toNat,buf',s₁,hle,?_⟩
      rw [hread,readCmds,hlast]
      rfl
    · intro σ body st
      obtain ⟨s',hs',hread⟩ := mainLoop_frames (c := c) body st hbuf hframes
        (s := ⟨calls,_⟩) rfl
      rw [hread]
      cases (buffers buf frames).foldlM body st with
      | none => rfl
      | some st' =>
        obtain ⟨len,buf',s₁,hlast,hle⟩ :=
          readCmd_cut c hp (hlength.symm ▸ hbuf) hroom hpart hcut hs'
        show mainLoop c body st' _ s' = _
        rw [mainLoop_round hlast,if_neg (not_lt.mpr hle)]

theorem two_frames_read :
    (∀ rest, ∃ last s', s'.pending = rest ∧
      readCmds .single 2 [0,0,0,0] ⟨0,[0,2,200,1,0,1,3] ++ rest⟩ =
        .ok ([(2,[200,1]),(1,[3])],last,s')) ∧
    mainLoop .single (fun n buf => if buf.head? = some 9 then none else some (n+1)) 0 [0,0,0,0]
      ⟨0,[0,2,200,1,0,1,3] ++ [0,4]⟩ = .ok (some 2) := by
  have hframes : ∀ p ∈ [[200,1],[3]], Readable 4 p := by
    intro p hp
    simp only [List.mem_cons,List.not_mem_nil,or_false] at hp
    rcases hp with rfl | rfl <;> exact ⟨by decide,by decide,by decide⟩
  obtain ⟨hall,hcut⟩ := frames_read .single [[200,1],[3]] [0,0,0,0] 0 (by decide) hframes
  refine ⟨hall,?_⟩
  exact (hcut [1,1,1,1] [0,4] (by decide) (by decide) (by decide) (by decide)).2 ℕ _ _

end Loop

section Replies

/-- What a call of `write_cmd` is given. -/
abbrev Reply := {p : Bytes // p ≠ []}

/-- The buffer at a `POST`. -/
def replyOf (toks : List Tok) : Reply := ⟨131::toks.flatMap Tok.bytes,List.cons_ne_nil _ _⟩

def output (c : Chunking) (calls : ℕ) (replies : List Reply) : Bytes :=
  (writeCmds c (replies.map Subtype.val) ⟨calls,[]⟩).sent

def ErrorReply (p : Bytes) : Prop :=
  ∃ msg, p = replyBytes (eiXEncodeAtom "error" ++ eiXEncodeString msg)

theorem output_stream (c : Chunking) (calls : ℕ) (replies : List Reply) :
    output c calls replies = stream twoBytes (replies.map Subtype.val) := by
  apply writeCmds_sent
  intro p hp
  obtain ⟨r,-,rfl⟩ := List.mem_map.mp hp
  exact r.property

theorem replies_arrive_iff (c : Chunking) (calls : ℕ) (replies : List Reply) :
    Arrives twoBytes ErrorReply (output c calls replies) (replies.map Subtype.val) ↔
      ∀ r ∈ replies, r.val.length < 65536 := by
  rw [output_stream,arrives_iff,List.forall_mem_map]
  rfl

/-- A client that finds one record under every key. -/
def servingPort (bins : List (Bytes × AsVal)) : PortEnv :=
  { plainPort with
    respond := fun _ => ⟨0,0,"",some ⟨none,0,0,bins⟩,fun _ => 0⟩
    short := fun _ => (by decide : (textBytes "").length < 1024) }

/-- The record `{<<"b">>, Data}` as `binary_key_get` replies it. -/
def dataReply (data : Bytes) : List Tok :=
  [.tuple 2,.atom "ok",.list 1,.tuple 2,.binary [98],.binary data,.nil]

theorem dataReply_written (data : Bytes) : (callBinaryKeyGet (servingPort [([98],.bytes data)])
    (connectedPort.goto [.binary [97],.binary [98],.binary [99]])).2.written = [dataReply data] := by
  unfold callBinaryKeyGet
  rw [preMacro_bind_run,bind_run_ok _ (binaryArg_run _ _ _ _),bind_run_ok _ (binaryArg_run _ _ _ _),
    bind_run_ok _ (binaryArg_run _ _ _ _),bind_run_ok _ (checkAll_run rfl rfl)]
  rfl

theorem dataReply_length (data : Bytes) :
    data.length < (replyOf (dataReply data)).val.length := by
  have hlt : (Tok.binary data).body.length < width (dataReply data) :=
    body_lt_width (by simp [dataReply])
  have hbody : (Tok.binary data).body.length = 4+data.length := by simp [Tok.body,sized]
  have hwidth : (replyOf (dataReply data)).val.length = width (dataReply data)+1 := rfl
  omega

def largeData : Bytes := List.replicate 65536 0

theorem large_reply_corrupts :
    (callBinaryKeyGet (servingPort [([98],.bytes largeData)])
      (connectedPort.goto [.binary [97],.binary [98],.binary [99]])).2.written =
        [dataReply largeData] ∧
    ¬Arrives twoBytes ErrorReply (output .single 0 [replyOf (dataReply largeData)])
      ([replyOf (dataReply largeData)].map Subtype.val) := by
  refine ⟨dataReply_written largeData,fun h => ?_⟩
  rw [output_stream,arrives_iff,List.map_singleton,List.forall_mem_singleton] at h
  have hshort : (replyOf (dataReply largeData)).val.length < 65536 := h
  have hlong := dataReply_length largeData
  have hlength : largeData.length = 65536 := List.length_replicate
  omega

end Replies

end AspikePort.PortFrames
