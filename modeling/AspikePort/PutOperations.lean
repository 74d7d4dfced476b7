import AspikePort.CdtPut
import AspikePort.FallibleLoops

/-!
# The operations a put submits

The element loop with its position counter and its last context appends to
the operations a list that depends on the elements alone. With that list both
put functions are known from their arguments: what they refuse and which one
request they submit.
-/

set_option autoImplicit false

namespace AspikePort.PutOperations
open AspikePort.ErlangTerms AspikePort.ClientValues AspikePort.EarlyReturn
open AspikePort.NifWorld AspikePort.CdtPut AspikePort.FallibleLoops Proc

section Elements
variable (c : Client) (now : ℤ)

def taken (op : Operation) : List Operation := if c.takesBin op.bin then [op] else []

theorem add_eq (ops : Operations) (op : Operation) :
    ops.add c op = { ops with entries := ops.entries ++ taken c op } := by
  unfold Operations.add taken
  split_ifs
  · rfl
  · rw [List.append_nil]

def contextOf (head : Term) : List Bytes :=
  match inspectBinary head with
  | some key => [cStr key]
  | none => []

def valueOperations (bin : Bytes) (context : List Bytes) (head : Term) : List Operation :=
  match inspectBinary head with
  | some data => taken c (.mapPut (cStr bin) context valueKey (.bytes data))
  | none => []

def ttlOperations (bin : Bytes) (context : List Bytes) (head : Term) : List Operation :=
  (match getInt64 head with
    | some i => taken c (.mapPut (cStr bin) context ttlKey (.integer i))
    | none => []) ++ taken c (.mapPut (cStr bin) context wtKey (.integer now))

def emitted (bin : Bytes) : Opnum → List Bytes → List Term → List Operation
  | _, _, [] => []
  | .key, _, t::ts => emitted bin .value (contextOf t) ts
  | .value, context, t::ts => valueOperations c bin context t ++ emitted bin .ttl context ts
  | .ttl, context, t::ts => ttlOperations c now bin context t ++ emitted bin .key context ts

theorem putElements_ops (bin : Bytes) (ts : List Term) (s : PutState) :
    (ts.foldl (putElement c now bin) s).ops =
      { s.ops with entries := s.ops.entries ++ emitted c now bin s.opnum s.context ts } := by
  induction ts generalizing s with
  | nil => simp [emitted]
  | cons t ts ih =>
    obtain ⟨opnum,context,ops⟩ := s
    rw [List.foldl_cons,ih]
    cases opnum with
    | key => rfl
    | value =>
      cases h : inspectBinary t with
      | none => simp [putElement,emitted,valueOperations,h]
      | some data => simp [putElement,emitted,valueOperations,h,add_eq]
    | ttl =>
      cases h : getInt64 t with
      | none => simp [putElement,emitted,ttlOperations,h,add_eq]
      | some i => simp [putElement,emitted,ttlOperations,h,add_eq]

end Elements

section Bins
variable (c : Client) (now : ℤ)

/-- A well-formed bin: its name and the elements of its data list. -/
abbrev BinData := Bytes × List Term

def encodeBin (d : BinData) : Term := .tuple [.binary d.1,ofList d.2]

def binPuts (d : BinData) : List Operation := emitted c now d.1 .key [] d.2

theorem putBin_eq (d : BinData) (ops : Operations) :
    putBin c now d.1 (ofList d.2) d.2.length ops =
      { ops with entries := ops.entries ++ binPuts c now d } := by
  unfold putBin
  rw [cells_ofList,putElements_ops]
  rfl

theorem readBin_pair (n : Bytes) (data : Term) : readBin (.tuple [.binary n,data]) =
    (orBadarg (getListLength data) >>= fun length => pure (n,data,length)) := rfl

theorem readBin_encode (d : BinData) :
    readBin (encodeBin d) = .ok (d.1,ofList d.2,d.2.length) := by
  rw [encodeBin,readBin_pair,getListLength_ofList]
  rfl

theorem encodeBin_injective : Function.Injective encodeBin := by
  rintro ⟨n,ts⟩ ⟨m,us⟩ h
  simp only [encodeBin,Term.tuple.injEq,List.cons.injEq,Term.binary.injEq,and_true] at h
  rw [h.1,ofList_injective h.2]

theorem readBin_cases (t : Term) : (∃ d, t = encodeBin d) ∨ readBin t = .error .badarg := by
  cases t with
  | tuple elements =>
    match elements with
    | [name,data] =>
      cases name with
      | binary n =>
        cases h : getListLength data with
        | none =>
          apply Or.inr
          rw [readBin_pair,h]
          rfl
        | some k =>
          obtain ⟨ts,rfl,-⟩ := getListLength_some h
          exact Or.inl ⟨(n,ts),rfl⟩
      | _ => exact Or.inr rfl
    | [] => exact Or.inr rfl
    | [_] => exact Or.inr rfl
    | _::_::_::_ => exact Or.inr rfl
  | _ => exact Or.inr rfl

/-- A list of bins is either readable from end to end or has a bin that is not. -/
theorem bins_cases (bs : List Term) :
    (∃ ds : List BinData, bs = ds.map encodeBin) ∨ ∃ b ∈ bs, readBin b = .error .badarg := by
  induction bs with
  | nil => exact Or.inl ⟨[],rfl⟩
  | cons b bs ih =>
    rcases readBin_cases b with ⟨d,rfl⟩ | hb
    · rcases ih with ⟨ds,rfl⟩ | ⟨x,hx,hbad⟩
      · exact Or.inl ⟨d::ds,rfl⟩
      · exact Or.inr ⟨x,List.mem_cons_of_mem _ hx,hbad⟩
    · exact Or.inr ⟨b,List.mem_cons_self,hb⟩

theorem validateBins_error {bs : List Term} (h : ∃ b ∈ bs, readBin b = .error .badarg) :
    validateBins bs.length (ofList bs) = .error .badarg := by
  unfold validateBins
  rw [cellsExcept_ofList]
  refine foldlM_eq_error (fun s x => ?_) ?_ 0
  · rcases readBin_cases x with ⟨d,rfl⟩ | hx
    · rw [readBin_encode]
      exact Or.inl ⟨_,rfl⟩
    · rw [hx]
      exact Or.inr rfl
  · obtain ⟨b,hb,hbad⟩ := h
    refine ⟨b,hb,fun s => ?_⟩
    rw [hbad]
    rfl

theorem validateBins_ok (ds : List BinData) :
    ∃ total, validateBins (ds.map encodeBin).length (ofList (ds.map encodeBin)) = .ok total := by
  unfold validateBins
  rw [cellsExcept_ofList]
  refine (foldlM_succeeds (P := fun b => ∃ d, b = encodeBin d) (fun s x => ?_) _ _).mpr ?_
  · rcases readBin_cases x with ⟨d,rfl⟩ | hx
    · rw [readBin_encode]
      exact iff_of_true (succeeds_pure _) ⟨d,rfl⟩
    · refine iff_of_false ?_ ?_
      · rw [hx]
        exact not_succeeds_error _
      · rintro ⟨d,rfl⟩
        rw [readBin_encode] at hx
        cases hx
  · intro b hb
    obtain ⟨d,-,rfl⟩ := List.mem_map.mp hb
    exact ⟨d,rfl⟩

theorem foldl_putBin (ds : List BinData) (ops : Operations) :
    ds.foldl (fun ops d => { ops with entries := ops.entries ++ binPuts c now d }) ops =
      { ops with entries := ops.entries ++ ds.flatMap (binPuts c now) } := by
  induction ds generalizing ops with
  | nil => simp
  | cons d ds ih =>
    rw [List.foldl_cons,ih]
    simp

/-- The second pass succeeds on whatever the first has let through, and puts
each bin's operations behind those of the bins before it. -/
theorem putAsyncBins_eq (ds : List BinData) (ops : Operations) :
    putAsyncBins c now (ds.map encodeBin).length (ofList (ds.map encodeBin)) ops =
      .ok { ops with entries := ops.entries ++ ds.flatMap (binPuts c now) } := by
  unfold putAsyncBins
  rw [cellsExcept_ofList,List.foldlM_map,← foldl_putBin]
  refine foldlM_eq_ok ds (fun d _ s => ?_) ops
  rw [readBin_encode]
  change Except.ok (putBin c now d.1 (ofList d.2) d.2.length s) = _
  rw [putBin_eq]

/-- The loop of `cdt_put_sync` reads the first bin once for each bin of the list
and starts again each time, so one reading is left. -/
theorem putSyncBins_eq (ttl : ℤ) (d : BinData) (rest : Term) (n : ℕ) (ops : Operations) :
    putSyncBins c now ttl (n+1) (.cons (encodeBin d) rest) ops =
      .ok { initOperations ttl with entries := binPuts c now d } := by
  induction n generalizing ops with
  | zero =>
    rw [putSyncBins]
    simp only [getListCell,readBin_encode]
    change Except.ok (putBin c now d.1 (ofList d.2) d.2.length (initOperations ttl)) = _
    rw [putBin_eq]
    rfl
  | succ n ih =>
    rw [putSyncBins]
    simp only [getListCell,readBin_encode]
    exact ih (putBin c now d.1 (ofList d.2) d.2.length (initOperations ttl))

theorem putSyncBins_error (ttl : ℤ) {b : Term} (hb : readBin b = .error .badarg) (rest : Term)
    (n : ℕ) (ops : Operations) :
    putSyncBins c now ttl (n+1) (.cons b rest) ops = .error .badarg := by
  rw [putSyncBins]
  simp only [getListCell,hb]
  rfl

end Bins

section Arguments

theorem binaryKey_cases (ns set key : Term) :
    (∃ k, binaryKey ns set key = .ok k) ∨ binaryKey ns set key = .error .badarg := by
  unfold binaryKey
  cases inspectBinary ns with
  | none => exact Or.inr rfl
  | some n =>
    cases inspectBinary set with
    | none => exact Or.inr rfl
    | some s =>
      cases inspectBinary key with
      | none => exact Or.inr rfl
      | some k => exact Or.inl ⟨_,rfl⟩

def IsPolicy (policy : Term) : Prop := ∃ a b d e, policy = .tuple [a,b,d,e]

theorem policy_cases (policy : Term) :
    (IsPolicy policy ∧ (∃ p, readPolicy policy = .ok p) ∧
      ∃ p, readPolicyAsync policy = .ok p) ∨
    (¬IsPolicy policy ∧ readPolicy policy = .error .badarg ∧
      readPolicyAsync policy = .error .badarg) := by
  cases policy with
  | tuple elements =>
    match elements with
    | [a,b,d,e] => exact Or.inl ⟨⟨a,b,d,e,rfl⟩,⟨_,rfl⟩,⟨_,rfl⟩⟩
    | [] => exact Or.inr ⟨by rintro ⟨_,_,_,_,⟨⟩⟩,rfl,rfl⟩
    | [_] => exact Or.inr ⟨by rintro ⟨_,_,_,_,⟨⟩⟩,rfl,rfl⟩
    | [_,_] => exact Or.inr ⟨by rintro ⟨_,_,_,_,⟨⟩⟩,rfl,rfl⟩
    | [_,_,_] => exact Or.inr ⟨by rintro ⟨_,_,_,_,⟨⟩⟩,rfl,rfl⟩
    | _::_::_::_::_::_ => exact Or.inr ⟨by rintro ⟨_,_,_,_,⟨⟩⟩,rfl,rfl⟩
  | _ => exact Or.inr ⟨by rintro ⟨_,_,_,_,⟨⟩⟩,rfl,rfl⟩

end Arguments

end AspikePort.PutOperations
