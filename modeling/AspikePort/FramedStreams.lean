import Mathlib.Algebra.BigOperators.Group.List.Basic
import Mathlib.Algebra.GroupWithZero.Nat
import Mathlib.Data.List.Basic

/-!
# Streams that are moved in pieces and cut into frames

A call moves as many items as it likes, but at least one where there is one. A
frame is a header of a fixed width, which tells the size, and the payload. A
stream is read back frame by frame, and what does not fit the header puts it
out of step.
-/

set_option autoImplicit false

namespace AspikePort.FramedStreams

section Pieces
variable {α : Type}

/-- How many of `n` items the `k`-th call moves. -/
structure Chunking where
  grant : ℕ → ℕ → ℕ
  positive : ∀ k n, 0 < n → 0 < grant k n
  within : ∀ k n, grant k n ≤ n

/-- One item a call. -/
def Chunking.single : Chunking where
  grant := fun _ n => min 1 n
  positive := fun _ _ h => Nat.lt_min.mpr ⟨Nat.one_pos,h⟩
  within := fun _ _ => Nat.min_le_right _ _

structure Source (α : Type) where
  calls : ℕ
  pending : List α

/-- At most `n` items. Nothing is the end of the stream. -/
def Source.read (c : Chunking) (n : ℕ) (s : Source α) : List α × Source α :=
  (s.pending.take (c.grant s.calls (min n s.pending.length)),
    ⟨s.calls+1,s.pending.drop (c.grant s.calls (min n s.pending.length))⟩)

structure Sink (α : Type) where
  calls : ℕ
  sent : List α

def Sink.write (c : Chunking) (xs : List α) (s : Sink α) : ℕ × Sink α :=
  (c.grant s.calls xs.length,⟨s.calls+1,s.sent ++ xs.take (c.grant s.calls xs.length)⟩)

variable (c : Chunking) {n : ℕ} (s : Source α)

theorem read_append : (s.read c n).1 ++ (s.read c n).2.pending = s.pending :=
  List.take_append_drop _ _

theorem length_read : (s.read c n).1.length = c.grant s.calls (min n s.pending.length) := by
  have hwithin := c.within s.calls (min n s.pending.length)
  rw [Source.read,List.length_take]
  omega

theorem length_read_le : (s.read c n).1.length ≤ min n s.pending.length := by
  rw [length_read]
  exact c.within _ _

theorem read_eq_nil_iff : (s.read c n).1 = [] ↔ n = 0 ∨ s.pending = [] := by
  rw [← List.length_eq_zero_iff,length_read,← List.length_eq_zero_iff (l := s.pending)]
  constructor
  · intro h
    by_contra hsome
    have hpos := c.positive s.calls (min n s.pending.length) (by omega)
    omega
  · intro h
    have hwithin := c.within s.calls (min n s.pending.length)
    omega

theorem read_takes {xs rest : List α} (hs : s.pending = xs ++ rest) (hlong : n ≤ xs.length) :
    xs = (s.read c n).1 ++ xs.drop (s.read c n).1.length ∧
      (s.read c n).2.pending = xs.drop (s.read c n).1.length ++ rest := by
  have hle := length_read_le (n := n) c s
  have hsplit : s.pending.drop (s.read c n).1.length =
      xs.drop (s.read c n).1.length ++ rest := by
    rw [hs,List.drop_append_of_le_length (by omega)]
  have hrest : (s.read c n).2.pending = s.pending.drop (s.read c n).1.length := by
    rw [length_read]
    rfl
  refine ⟨?_,by rw [hrest,hsplit]⟩
  have hall := read_append (n := n) c s
  rw [hrest,hsplit,hs,← List.append_assoc] at hall
  exact (List.append_cancel_right hall).symm

end Pieces

section Frames
variable {α : Type}

/-- A header tells every size below the limit. -/
structure LengthCode (α : Type) where
  width : ℕ
  limit : ℕ
  header : ℕ → List α
  size : List α → ℕ
  width_pos : 0 < width
  length_header : ∀ n, (header n).length = width
  size_header : ∀ n < limit, size (header n) = n
  size_lt : ∀ xs, xs.length = width → size xs < limit

variable (k : LengthCode α)

def frame (p : List α) : List α := k.header p.length ++ p

def stream (ps : List (List α)) : List α := ps.flatMap (frame k)

/-- The first payload, and what stands behind it. -/
def unframe (s : List α) : Option (List α × List α) :=
  if s.length < k.width then none
  else if s.length < k.width+k.size (s.take k.width) then none
  else some ((s.drop k.width).take (k.size (s.take k.width)),
    s.drop (k.width+k.size (s.take k.width)))

/-- The payloads that a reader takes from the whole of a stream. -/
def Decodes : List (List α) → List α → Prop
  | [], s => s = []
  | p::ps, s => ∃ rest, unframe k s = some (p,rest) ∧ Decodes ps rest

variable {k}

theorem length_frame (p : List α) : (frame k p).length = k.width+p.length := by
  rw [frame,List.length_append,k.length_header]

theorem take_frame (p rest : List α) :
    (frame k p ++ rest).take k.width = k.header p.length := by
  rw [frame,List.append_assoc]
  exact List.take_left' (k.length_header _)

theorem drop_frame (p rest : List α) : (frame k p ++ rest).drop k.width = p ++ rest := by
  rw [frame,List.append_assoc]
  exact List.drop_left' (k.length_header _)

theorem unframe_frame {p : List α} (hp : p.length < k.limit) (rest : List α) :
    unframe k (frame k p ++ rest) = some (p,rest) := by
  have hsize : k.size ((frame k p ++ rest).take k.width) = p.length := by
    rw [take_frame,k.size_header _ hp]
  have hlength : (frame k p ++ rest).length = k.width+p.length+rest.length := by
    rw [List.length_append,length_frame]
  rw [unframe,hsize,if_neg (by omega),if_neg (by omega),drop_frame,List.take_left,
    List.drop_left' (length_frame p)]

theorem decodes_stream {ps : List (List α)} (h : ∀ p ∈ ps, p.length < k.limit) :
    Decodes k ps (stream k ps) := by
  induction ps with
  | nil => rfl
  | cons p ps ih =>
    have htail := ih (fun q hq => h q (List.mem_cons_of_mem _ hq))
    exact ⟨stream k ps,unframe_frame (h p List.mem_cons_self) _,htail⟩

def totalLength (k : LengthCode α) (ps : List (List α)) : ℕ :=
  (ps.map (fun p => k.width+p.length)).sum

theorem length_stream (ps : List (List α)) : (stream k ps).length = totalLength k ps := by
  induction ps with
  | nil => rfl
  | cons p ps ih =>
    rw [stream,List.flatMap_cons,List.length_append,length_frame]
    exact congrArg (k.width+p.length+·) ih

theorem unframe_some {s p rest : List α} (h : unframe k s = some (p,rest)) :
    s.length = k.width+p.length+rest.length ∧ p.length < k.limit := by
  rw [unframe] at h
  split_ifs at h with hheader hpayload
  cases h
  have hlt := k.size_lt (s.take k.width) (by rw [List.length_take]; omega)
  rw [List.length_take,List.length_drop,List.length_drop]
  omega

theorem decodes_length {ps : List (List α)} {s : List α} (h : Decodes k ps s) :
    s.length = totalLength k ps ∧ ∀ p ∈ ps, p.length < k.limit := by
  induction ps generalizing s with
  | nil =>
    rw [show s = [] from h]
    exact ⟨rfl,fun p hp => nomatch hp⟩
  | cons p ps ih =>
    obtain ⟨rest,hrest,htail⟩ := h
    obtain ⟨hlength,hlimit⟩ := unframe_some hrest
    obtain ⟨hsum,hall⟩ := ih htail
    refine ⟨?_,List.forall_mem_cons.mpr ⟨hlimit,hall⟩⟩
    rw [hlength,hsum]
    rfl

/-- Every payload arrives as it is, or is replaced where it does not fit. -/
def Arrives (k : LengthCode α) (replaces : List α → Prop) (s : List α)
    (ps : List (List α)) : Prop :=
  ∃ qs, Decodes k qs s ∧ List.Forall₂ (fun p q => q = p ∨ k.limit ≤ p.length ∧ replaces q) ps qs

/-- What replaces a payload is shorter, so the sizes tell that nothing was replaced. -/
theorem all_fit {replaces : List α → Prop} {ps qs : List (List α)}
    (hsame : List.Forall₂ (fun p q => q = p ∨ k.limit ≤ p.length ∧ replaces q) ps qs)
    (hfit : ∀ q ∈ qs, q.length < k.limit) :
    totalLength k qs ≤ totalLength k ps ∧
      (totalLength k ps ≤ totalLength k qs → ∀ p ∈ ps, p.length < k.limit) := by
  induction hsame with
  | nil => exact ⟨Nat.le_refl _,fun _ p hp => nomatch hp⟩
  | @cons p q ps qs hpq _ ih =>
    obtain ⟨hq,htail⟩ := List.forall_mem_cons.mp hfit
    obtain ⟨hle,hall⟩ := ih htail
    have hps : totalLength k (p::ps) = k.width+p.length+totalLength k ps := rfl
    have hqs : totalLength k (q::qs) = k.width+q.length+totalLength k qs := rfl
    have hshort : q.length ≤ p.length := by
      rcases hpq with rfl | ⟨hlong,-⟩ <;> omega
    refine ⟨by omega,fun hge => List.forall_mem_cons.mpr ⟨?_,hall (by omega)⟩⟩
    rcases hpq with rfl | ⟨hlong,-⟩
    · exact hq
    · omega

theorem arrives_iff (replaces : List α → Prop) (ps : List (List α)) :
    Arrives k replaces (stream k ps) ps ↔ ∀ p ∈ ps, p.length < k.limit := by
  constructor
  · rintro ⟨qs,hdecodes,hsame⟩
    obtain ⟨hlength,hfit⟩ := decodes_length hdecodes
    apply (all_fit hsame hfit).2
    exact Nat.le_of_eq ((length_stream ps).symm.trans hlength)
  · intro h
    refine ⟨ps,decodes_stream h,?_⟩
    exact List.forall₂_same.mpr (fun p _ => .inl rfl)

end Frames

end AspikePort.FramedStreams
