import AspikePort.SyncCalls

/-!
# Where the character-list operations store

`enif_get_string` is given a size and an array; the two are written separately
at every call. How far it really writes is left open: a reader of strings may
go as far as the size it is given. The operations of this module are those of
`sync_methods.cpp` with that choice made explicit, and `node_get`.
-/

set_option autoImplicit false

namespace AspikePort.CharListStores
open AspikePort.ErlangTerms AspikePort.ClientValues AspikePort.EarlyReturn
open AspikePort.NifWorld AspikePort.SyncCalls AspikePort.ValueFormat
open AspikePort.FallibleLoops Proc

section Readers

/-- How many bytes `enif_get_string` stores when it is given a size. -/
structure StringReader where
  extent : ℕ → Term → ℕ
  within : ∀ size t, extent size t ≤ size

theorem copyWhileFits_length (room : ℕ) (cs : List ℕ) :
    (copyWhileFits room cs).length ≤ room := by
  induction cs generalizing room with
  | nil => exact Nat.zero_le room
  | cons c cs ih =>
    unfold copyWhileFits
    split_ifs with hc
    · have := ih (room-(utf8 c).length)
      rw [List.length_append]
      omega
    · exact Nat.zero_le room

theorem getString_length {size : ℕ} {t : Term} {text : Bytes} (h : getString size t = some text) :
    text.length < size := by
  unfold getString at h
  split_ifs at h with hs
  obtain ⟨cs,-,rfl⟩ := Option.map_eq_some_iff.mp h
  have := copyWhileFits_length (size-1) cs
  omega

/-- Stores the text and its final zero. -/
def plainReader : StringReader where
  extent size t := match getString size t with
    | some text => text.length+1
    | none => 0
  within size t := by
    cases h : getString size t with
    | none => exact Nat.zero_le size
    | some text => exact getString_length h

/-- Stores as much as it may. -/
def greedyReader : StringReader := ⟨fun size _ => size,fun size _ => Nat.le_refl size⟩

variable (R : StringReader)

/-- One `enif_get_string` call on an array of `room` bytes. -/
def readInto (size room : ℕ) (t : Term) : Except Reply (Option Bytes) :=
  if R.extent size t ≤ room then .ok (getString size t) else .error (.fault .bufferOverflow)

def textInto (size room : ℕ) (t : Term) : Except Reply Bytes := do
  orBadarg (← readInto R size room t)

theorem textInto_fits {size room : ℕ} {t : Term} (h : R.extent size t ≤ room) :
    textInto R size room t = orBadarg (getString size t) := by
  unfold textInto readInto
  rw [if_pos h]
  rfl

theorem textInto_overflows {size room : ℕ} {t : Term} (h : ¬R.extent size t ≤ room) :
    textInto R size room t = .error (.fault .bufferOverflow) := by
  unfold textInto readInto
  rw [if_neg h]
  rfl

theorem plainReader_none {size : ℕ} {t : Term} (h : getString size t = none) :
    plainReader.extent size t = 0 := by
  simp only [plainReader,h]

theorem plainReader_some {size : ℕ} {t : Term} {text : Bytes} (h : getString size t = some text) :
    plainReader.extent size t = text.length+1 := by
  simp only [plainReader,h]

theorem readInto_plain (size room : ℕ) (t : Term) :
    readInto plainReader size room t = match getString size t with
      | some text => (intoArray room text).map some
      | none => .ok none := by
  unfold readInto
  cases h : getString size t with
  | none =>
    rw [plainReader_none h]
    exact if_pos (Nat.zero_le room)
  | some text =>
    rw [plainReader_some h]
    dsimp only
    unfold intoArray
    by_cases hfit : text.length < room
    · rw [if_pos hfit,if_pos (Nat.succ_le_of_lt hfit)]
      rfl
    · rw [if_neg hfit,if_neg (show ¬text.length+1 ≤ room from hfit)]
      rfl

theorem textInto_plain (size room : ℕ) (t : Term) :
    textInto plainReader size room t = orBadarg (getString size t) >>= intoArray room := by
  unfold textInto
  rw [readInto_plain]
  cases getString size t with
  | none => rfl
  | some text =>
    change (intoArray room text).map some >>= orBadarg = intoArray room text
    cases intoArray room text <;> rfl

end Readers

section Operations
variable (R : StringReader) (c : Client) (env : Env)

def stringKeyWith (nameSpace set key : Term) : Except Reply AsKey := do
  let ns ← textInto R maxNamespaceSize maxNamespaceSize nameSpace
  let set ← textInto R maxSetSize maxSetSize set
  let key ← textInto R maxKeyStrSize maxKeyStrSize key
  return asKeyInitStr ns set key

def readIntegerBinWith (bin : Term) : Except Reply (Bytes × ℤ) := do
  match ← orBadarg (getTuple bin) with
  | [name,val] => do
    let name ← textInto R maxSetSize asBinNameMaxSize name
    let val ← orBadarg (getLong val)
    return (cStr name,val)
  | _ => .error .badarg

def selectNamesWith : ℕ → Term → List Bytes → Except Reply (List Bytes)
  | 0, _, bins => .ok bins
  | n+1, list, bins =>
    match getListCell list with
    | none => .ok bins
    | some (head,tail) => do
      match ← readInto R maxKeyStrSize asBinNameMaxSize head with
      | none => .ok bins
      | some bin =>
        if maxBinsNumber ≤ bins.length then .error (.fault .bufferOverflow)
        else selectNamesWith n tail (bins ++ [cStr bin])

/-- The names and the `NULL` after the last of them. -/
def selectArray (n : ℕ) (list : Term) : Except Reply (List Bytes) := do
  let bins ← selectNamesWith R n list []
  if maxBinsNumber ≤ bins.length then .error (.fault .bufferOverflow) else return bins

def keySelectWith (nameSpace set key list : Term) : Nif Term := do
  let k ← lift (stringKeyWith R nameSpace set key)
  let length ← lift (orBadarg (getListLength list))
  isConnected
  if length = 0 then return makeTuple2 atomOk (ofList [])
  else do
    let bins ← lift (selectArray R length list)
    let r ← submit env (.keySelect k bins)
    if r.status ≠ aerospikeOk then return errorString r.message
    else match r.record with
    | none => stop (.fault .nullPointer)
    | some rec => do
      let msg ← lift (orFault (dumpRecords c rec))
      return makeTuple2 atomOk msg

def keyIncWith (nameSpace set key list : Term) : Nif Term := do
  let k ← lift (stringKeyWith R nameSpace set key)
  let length ← lift (orBadarg (getListLength list))
  isConnected
  if length = 0 then return okString "key_inc"
  else do
    let ops ← lift (cellsExcept (fun s => .ok s) (fun ops bin => do
      let (name,val) ← readIntegerBinWith R bin
      return Operations.add c ops (.incr name val)) length list ⟨0,[]⟩)
    let r ← submit env (.keyOperate k ops none)
    return answerString r "key_inc"

def keyPutWith (nameSpace set key list : Term) : Nif Term := do
  let k ← lift (stringKeyWith R nameSpace set key)
  let length ← lift (orBadarg (getListLength list))
  isConnected
  if length = 0 then return okString "key_put"
  else do
    let rec ← lift (cellsExcept (fun s => .ok s) (fun rec bin => do
      let (name,val) ← readIntegerBinWith R bin
      return setBin c rec name (.integer val)) length list ⟨length,0,[]⟩)
    let r ← submit env (.keyPut k rec)
    return answerString r "key_put"

def aKeyPutWith (bin val nameSpace set key n : Term) : Nif Term := do
  let bin ← lift (textInto R asUserSize asBinNameMaxSize bin)
  let val ← lift (orBadarg (getLong val))
  let k ← lift (stringKeyWith R nameSpace set key)
  let n ← lift (orBadarg (getLong n))
  isConnected
  let failed ← putLoop env k (setBin c ⟨1,0,[]⟩ bin (.integer val)) n env.fuel 0
  match failed with
  | some msg => return errorString msg
  | none =>
    if n = 0 then stop (.fault .divisionByZero)
    else return makeTuple2 atomOk (.map
      [(makeString "repetitions",.integer (n%2^64)),
       (makeString "CLOCK_THREAD_CPUTIME_ID",.float (env.toDouble (env.threadTspent.tdiv n))),
       (makeString "CLOCK_REALTIME",.float (env.toDouble (env.realTspent.tdiv n)))])

/-- What the client says of its nodes: `AS_NODE_NAME_MAX_SIZE` and the address
of the node with a name. -/
structure Nodes where
  asNodeNameMaxSize : ℕ
  addressString : Bytes → Option String

def nodeGetWith (nodes : Nodes) (name : Term) : Nif Term := do
  let name ← lift (textInto R asUserSize nodes.asNodeNameMaxSize name)
  isConnected
  touchClient
  match nodes.addressString (cStr name) with
  | none => return errorString "Failed to find server node."
  | some address => return okString address

end Operations

/-! With the plain reader these are the operations as they are modelled
elsewhere. -/

section Agreement

theorem readInto_own (R : StringReader) (size : ℕ) (t : Term) :
    textInto R size size t = orBadarg (getString size t) := textInto_fits R (R.within size t)

/-- The arrays of the three key arguments are as large as the sizes say. -/
theorem stringKeyWith_eq (R : StringReader) (nameSpace set key : Term) :
    stringKeyWith R nameSpace set key = stringKey nameSpace set key := by
  unfold stringKeyWith stringKey
  simp only [readInto_own]

theorem readIntegerBinWith_plain (bin : Term) :
    readIntegerBinWith plainReader bin = readIntegerBin bin := by
  unfold readIntegerBinWith readIntegerBin
  simp only [textInto_plain]
  cases getTuple bin with
  | none => rfl
  | some elements =>
    rcases elements with _ | ⟨name,_ | ⟨val,_ | _⟩⟩
    · rfl
    · rfl
    · change (orBadarg (getString maxSetSize name) >>= intoArray asBinNameMaxSize) >>= _ =
        orBadarg (getString maxSetSize name) >>= _
      cases getString maxSetSize name <;> rfl
    · rfl

theorem selectNamesWith_plain (n : ℕ) (list : Term) (bins : List Bytes) :
    selectNamesWith plainReader n list bins = selectNames n list bins := by
  induction n generalizing list bins with
  | zero => rfl
  | succ n ih =>
    unfold selectNamesWith selectNames
    cases getListCell list with
    | none => rfl
    | some cell =>
      dsimp only
      rw [readInto_plain]
      cases getString maxKeyStrSize cell.1 with
      | none => rfl
      | some bin =>
        change (intoArray asBinNameMaxSize bin).map some >>= _ =
          intoArray asBinNameMaxSize bin >>= _
        cases intoArray asBinNameMaxSize bin with
        | error e => rfl
        | ok bin =>
          change (if maxBinsNumber ≤ bins.length then _ else _) =
            if maxBinsNumber ≤ bins.length then _ else _
          rw [ih]

theorem keyPutWith_plain (c : Client) (env : Env) (nameSpace set key list : Term) :
    keyPutWith plainReader c env nameSpace set key list =
      keyPutSync c env nameSpace set key list := by
  unfold keyPutWith keyPutSync
  simp only [stringKeyWith_eq,readIntegerBinWith_plain]

theorem keyIncWith_plain (c : Client) (env : Env) (nameSpace set key list : Term) :
    keyIncWith plainReader c env nameSpace set key list =
      keyIncSync c env nameSpace set key list := by
  unfold keyIncWith keyIncSync
  simp only [stringKeyWith_eq,readIntegerBinWith_plain]

theorem aKeyPutWith_plain (c : Client) (env : Env) (bin val nameSpace set key n : Term) :
    aKeyPutWith plainReader c env bin val nameSpace set key n =
      aKeyPutSync c env bin val nameSpace set key n := by
  unfold aKeyPutWith aKeyPutSync
  simp only [stringKeyWith_eq,textInto_plain]
  funext w
  cases getString asUserSize bin <;> rfl

theorem keySelectWith_plain (c : Client) (env : Env) (nameSpace set key list : Term) :
    keySelectWith plainReader c env nameSpace set key list =
      keySelectSync c env nameSpace set key list := by
  unfold keySelectWith keySelectSync
  simp only [stringKeyWith_eq]
  congr 1
  funext k
  congr 1
  funext length
  congr 1
  funext u
  split_ifs with hzero
  · rfl
  · unfold selectArray
    rw [selectNamesWith_plain]
    funext w
    cases selectNames length list [] with
    | error e => rfl
    | ok bins =>
      by_cases hfull : maxBinsNumber ≤ bins.length
      · rw [lift_ok_bind_run,if_pos hfull]
        exact bind_run_error _ (show lift (if maxBinsNumber ≤ bins.length then _ else _) w = _ by
          rw [if_pos hfull]; rfl)
      · rw [lift_ok_bind_run,if_neg hfull]
        exact bind_run_ok _ (show lift (if maxBinsNumber ≤ bins.length then _ else _) w = _ by
          rw [if_neg hfull]; rfl)

end Agreement

/-! Turning a record into a term reads values and stores nothing. -/

section Dumps

theorem formatValueOut_avoids (c : Client) (val : AsVal) :
    Avoids .bufferOverflow (formatValueOut c val) := by
  have hfield (f : Fields) (pair : AsVal × AsVal) : Avoids .bufferOverflow (readField f pair) := by
    unfold readField
    split_ifs
    · exact avoids_ok _ _
    · obtain ⟨key,v⟩ := pair
      cases key <;> cases v <;> exact fun h => nomatch h
    · exact avoids_ok _ _
    · exact avoids_ok _ _
  have hentry (xs : List Term) (pair : AsVal × AsVal) :
      Avoids .bufferOverflow (formatEntry c xs pair) := by
    obtain ⟨key,v⟩ := pair
    cases v with
    | map vmap =>
      exact (avoids_bind _ _ _).mpr ⟨avoids_foldlM _ hfield vmap {},fun f _ => avoids_ok _ _⟩
    | _ => exact avoids_ok _ _
  cases val with
  | list xs =>
    have hint (v : AsVal) : Avoids .bufferOverflow (integerFromval v) := by
      cases v <;> exact fun h => nomatch h
    refine (avoids_bind _ (asList (.list xs)) _).mpr ⟨avoids_ok _ _,fun ys _ => ?_⟩
    exact (avoids_bind _ _ _).mpr ⟨avoids_mapM _ hint ys,fun is _ => avoids_ok _ _⟩
  | map es =>
    refine (avoids_bind _ (asMap (.map es)) _).mpr ⟨avoids_ok _ _,fun fs _ => ?_⟩
    exact (avoids_bind _ _ _).mpr ⟨avoids_foldlM _ hentry fs [],fun terms _ => avoids_ok _ _⟩
  | _ => exact fun h => nomatch h

theorem dumpRecords_avoids (c : Client) (rec : Record) :
    Avoids .bufferOverflow (dumpRecords c rec) := by
  unfold dumpRecords dumpWith
  cases rec.key with
  | some key => exact avoids_ok _ _
  | none =>
    exact avoids_foldlM _ (fun res bin => (avoids_bind _ _ _).mpr
      ⟨formatValueOut_avoids c bin.2,fun value _ => avoids_ok _ _⟩) rec.bins Term.nil

end Dumps

section Rules
variable {α β : Type}

def beyond : Reply := .fault .bufferOverflow

/-- Nothing is stored beyond the end of an array. -/
def Inside (p : Nif α) (w : World) : Prop := wp p (fun r _ => Avoids beyond r) w

theorem inside_bind {p : Nif α} {f : α → Nif β} {w : World} (hp : Inside p w)
    (hf : ∀ a t, Inside (f a) t) : Inside (p >>= f) w := by
  refine (wp_bind p f _ w).mpr (wp_mono hp fun r t hr => ?_)
  cases r with
  | ok a => exact hf a t
  | error e => exact (avoids_error beyond).mpr ((avoids_error beyond).mp hr)

theorem inside_lift_bind (x : Except Reply α) (f : α → Nif β) (w : World) :
    Inside (lift x >>= f) w ↔ Avoids beyond x ∧ ∀ a, x = .ok a → Inside (f a) w := by
  cases x with
  | ok a =>
    change Inside (f a) w ↔ _
    exact ⟨fun h => ⟨avoids_ok beyond a,fun b hb => Except.ok.inj hb ▸ h⟩,fun h => h.2 a rfl⟩
  | error e =>
    change Avoids beyond (.error e) ↔ _
    rw [avoids_error,avoids_error]
    exact ⟨fun h => ⟨h,fun a ha => nomatch ha⟩,And.left⟩

theorem inside_isConnected_bind (f : Unit → Nif α) (w : World) :
    Inside (isConnected >>= f) w ↔ (w.isConnectedFlag = true → Inside (f ()) w) := by
  unfold Inside wp
  by_cases h : w.isConnectedFlag = true
  · rw [isConnected_bind_run f h]
    exact ⟨fun hi _ => hi,fun hi => hi h⟩
  · rw [isConnected_bind_refused f h]
    exact ⟨fun _ hw => absurd hw h,fun _ => (avoids_error beyond).mpr (fun heq => nomatch heq)⟩

theorem avoids_badarg : Avoids beyond (.error .badarg : Except Reply α) :=
  (avoids_error beyond).mpr (fun h => nomatch h)

theorem avoids_orBadarg (x : Option α) : Avoids beyond (orBadarg x) := by
  cases x with
  | none => exact avoids_badarg
  | some a => exact avoids_ok beyond a

theorem avoids_stringKey (nameSpace set key : Term) :
    Avoids beyond (stringKey nameSpace set key) := by
  unfold stringKey
  refine (avoids_bind _ _ _).mpr ⟨avoids_orBadarg _,fun ns _ => ?_⟩
  refine (avoids_bind _ _ _).mpr ⟨avoids_orBadarg _,fun set _ => ?_⟩
  exact (avoids_bind _ _ _).mpr ⟨avoids_orBadarg _,fun key _ => avoids_ok beyond _⟩

theorem avoids_orFault {x : Except Fault α} (h : Avoids .bufferOverflow x) :
    Avoids beyond (orFault x) := by
  cases x with
  | ok a => exact avoids_ok beyond a
  | error f => exact fun he => h (by cases he; rfl)

variable (R : StringReader)

theorem avoids_textInto (size room : ℕ) (t : Term) :
    Avoids beyond (textInto R size room t) ↔ R.extent size t ≤ room := by
  by_cases h : R.extent size t ≤ room
  · rw [textInto_fits R h]
    exact ⟨fun _ => h,fun _ => avoids_orBadarg _⟩
  · rw [textInto_overflows R h]
    exact ⟨fun ha => absurd rfl ha,fun hr => absurd hr h⟩

/-- How `key_put`, `key_inc` and `key_select` begin. -/
theorem inside_listCall (nameSpace set key list : Term) (body : AsKey → ℕ → Nif α) (w : World) :
    Inside (do
        let k ← lift (stringKeyWith R nameSpace set key)
        let length ← lift (orBadarg (getListLength list))
        isConnected
        body k length) w ↔
      ∀ k ts, stringKey nameSpace set key = .ok k → list = ofList ts → w.isConnectedFlag = true →
        Inside (body k ts.length) w := by
  rw [inside_lift_bind,stringKeyWith_eq]
  constructor
  · rintro ⟨-,h⟩ k ts hk rfl hw
    have := ((inside_lift_bind _ _ w).mp (h k hk)).2 ts.length
      (by rw [getListLength_ofList,orBadarg_some])
    exact (inside_isConnected_bind _ w).mp this hw
  · intro h
    refine ⟨avoids_stringKey nameSpace set key,fun k hk => ?_⟩
    refine (inside_lift_bind _ _ w).mpr ⟨avoids_orBadarg _,fun n hn => ?_⟩
    refine (inside_isConnected_bind _ w).mpr fun hw => ?_
    cases hl : getListLength list with
    | none =>
      rw [hl] at hn
      cases hn
    | some m =>
      rw [hl,orBadarg_some] at hn
      obtain ⟨ts,rfl,rfl⟩ := getListLength_some hl
      cases hn
      exact h k ts hk rfl hw

theorem inside_submit_bind (env : Env) (req : Request) (f : Response → Nif α) (w : World) :
    Inside (submit env req >>= f) w ↔
      Inside (f (env.respond (w.submitted ++ [req]))) (afterSubmit req w) := Iff.rfl

theorem inside_pure (a : α) (w : World) : Inside (pure a) w := avoids_ok beyond a

theorem inside_stop {r : Reply} (h : r ≠ beyond) (w : World) : Inside (stop r : Nif α) w :=
  (avoids_error beyond).mpr h

end Rules

section PairLists
variable (R : StringReader)

theorem avoids_readIntegerBinWith (bin : Term) :
    Avoids beyond (readIntegerBinWith R bin) ↔
      ∀ name val, bin = .tuple [name,val] → R.extent maxSetSize name ≤ asBinNameMaxSize := by
  constructor
  · rintro h name val rfl
    exact (avoids_textInto R _ _ name).mp
      ((avoids_bind _ (textInto R maxSetSize asBinNameMaxSize name) _).mp h).1
  · intro h
    refine (avoids_bind _ _ _).mpr ⟨avoids_orBadarg _,fun elements hel => ?_⟩
    match elements with
    | [name,val] =>
      cases bin <;> cases hel
      refine (avoids_bind _ _ _).mpr ⟨(avoids_textInto R _ _ name).mpr (h name val rfl),fun n _ => ?_⟩
      exact (avoids_bind _ _ _).mpr ⟨avoids_orBadarg _,fun v _ => avoids_ok _ _⟩
    | [] => exact avoids_badarg
    | [_] => exact avoids_badarg
    | _::_::_::_ => exact avoids_badarg

/-- Every name that is read fits: up to the first element that is no pair of a
text and an integer. -/
def PairsInside (ts : List Term) : Prop :=
  ∀ init x post, ts = init ++ x::post → (∀ y ∈ init, Succeeds (readIntegerBinWith R y)) →
    Avoids beyond (readIntegerBinWith R x)

theorem pairsInside_nil : PairsInside R [] := by
  intro init x post heq
  cases init <;> cases heq

/-- The part `key_put` and `key_inc` share: an empty list is answered at once,
and a loop reads the pairs of any other. -/
theorem inside_pairLoop {σ α : Type} (step : σ → Bytes × ℤ → σ) (ts : List Term) (s : σ) (empty : α)
    {finish : σ → Nif α} (hfin : ∀ s t, Inside (finish s) t) (w : World) :
    Inside (if ts.length = 0 then pure empty else
        lift (cellsExcept (fun s => .ok s)
          (fun s bin => readIntegerBinWith R bin >>= fun b => .ok (step s b))
          ts.length (ofList ts) s) >>= finish) w ↔ PairsInside R ts := by
  cases ts with
  | nil => exact ⟨fun _ => pairsInside_nil R,fun _ => inside_pure empty w⟩
  | cons t ts =>
    rw [if_neg (by simp),cellsExcept_ofList,inside_lift_bind]
    rw [foldlM_avoids beyond (readIntegerBinWith R) step (t::ts) s]
    exact ⟨And.left,fun h => ⟨h,fun a _ => hfin a w⟩⟩

variable (c : Client) (env : Env) (w : World)

theorem keyPut_inside_iff (nameSpace set key list : Term) :
    Inside (keyPutWith R c env nameSpace set key list) w ↔
      ∀ k ts, stringKey nameSpace set key = .ok k → list = ofList ts →
        w.isConnectedFlag = true → PairsInside R ts := by
  unfold keyPutWith
  rw [inside_listCall]
  refine forall₄_congr fun k ts _ hl => imp_congr_right fun _ => ?_
  subst hl
  exact inside_pairLoop R (fun rec b => setBin c rec b.1 (.integer b.2)) ts ⟨ts.length,0,[]⟩
    (okString "key_put")
    (fun rec t => (inside_submit_bind env (.keyPut k rec) _ t).mpr (inside_pure _ _)) w

theorem keyInc_inside_iff (nameSpace set key list : Term) :
    Inside (keyIncWith R c env nameSpace set key list) w ↔
      ∀ k ts, stringKey nameSpace set key = .ok k → list = ofList ts →
        w.isConnectedFlag = true → PairsInside R ts := by
  unfold keyIncWith
  rw [inside_listCall]
  refine forall₄_congr fun k ts _ hl => imp_congr_right fun _ => ?_
  subst hl
  exact inside_pairLoop R (fun ops b => Operations.add c ops (.incr b.1 b.2)) ts ⟨0,[]⟩
    (okString "key_inc")
    (fun ops t => (inside_submit_bind env (.keyOperate k ops none) _ t).mpr (inside_pure _ _)) w

end PairLists

section NameLists
variable (R : StringReader)

/-- From the i-th name on: every name that is read fits, and so does its slot
or that of the final `NULL`. -/
def NamesInside : ℕ → List Term → Prop
  | i, [] => i < maxBinsNumber
  | i, t::ts => R.extent maxKeyStrSize t ≤ asBinNameMaxSize ∧ i < maxBinsNumber ∧
      ((getString maxKeyStrSize t).isSome → NamesInside (i+1) ts)

theorem avoids_selectNamesWith (ts : List Term) (bins : List Bytes) :
    Avoids beyond (do
        let bins ← selectNamesWith R ts.length (ofList ts) bins
        if maxBinsNumber ≤ bins.length then .error beyond else return bins) ↔
      NamesInside R bins.length ts := by
  have hend (bins : List Bytes) : Avoids beyond
      (if maxBinsNumber ≤ bins.length then .error beyond else .ok bins) ↔
        bins.length < maxBinsNumber := by
    split_ifs with hfull
    · exact ⟨fun h => absurd rfl h,fun h => absurd hfull (Nat.not_le.mpr h)⟩
    · exact ⟨fun _ => Nat.not_le.mp hfull,fun _ => avoids_ok _ _⟩
  induction ts generalizing bins with
  | nil => exact hend bins
  | cons t ts ih =>
    unfold NamesInside
    have hcell : selectNamesWith R (t::ts).length (ofList (t::ts)) bins =
        readInto R maxKeyStrSize asBinNameMaxSize t >>= fun
          | none => .ok bins
          | some bin =>
            if maxBinsNumber ≤ bins.length then .error beyond
            else selectNamesWith R ts.length (ofList ts) (bins ++ [cStr bin]) := rfl
    rw [hcell]
    unfold readInto
    by_cases hfit : R.extent maxKeyStrSize t ≤ asBinNameMaxSize
    · rw [if_pos hfit]
      cases hs : getString maxKeyStrSize t with
      | none => exact (hend bins).trans ⟨fun h => ⟨hfit,h,fun hn => nomatch hn⟩,fun h => h.2.1⟩
      | some bin =>
        change Avoids beyond ((if maxBinsNumber ≤ bins.length then Except.error beyond
          else selectNamesWith R ts.length (ofList ts) (bins ++ [cStr bin])) >>= _) ↔ _
        by_cases hfull : maxBinsNumber ≤ bins.length
        · rw [if_pos hfull]
          exact ⟨fun h => absurd rfl h,fun h => absurd hfull (Nat.not_le.mpr h.2.1)⟩
        · rw [if_neg hfull]
          have hrest := ih (bins ++ [cStr bin])
          rw [List.length_append,List.length_singleton] at hrest
          exact hrest.trans ⟨fun h => ⟨hfit,Nat.not_le.mp hfull,fun _ => h⟩,fun h => h.2.2 rfl⟩
    · rw [if_neg hfit]
      exact ⟨fun h => absurd rfl h,fun h => absurd h.1 hfit⟩

/-- Where no name is too long for its array, the number of names decides: the
`NULL` needs a slot of its own. -/
theorem namesInside_of_fitting {i : ℕ} {ts : List Term}
    (h : ∀ t ∈ ts, R.extent maxKeyStrSize t ≤ asBinNameMaxSize) :
    NamesInside R i ts ↔
      i+(ts.takeWhile (fun t => (getString maxKeyStrSize t).isSome)).length < maxBinsNumber := by
  induction ts generalizing i with
  | nil => exact Iff.rfl
  | cons t ts ih =>
    unfold NamesInside
    rw [List.forall_mem_cons] at h
    rw [List.takeWhile_cons]
    cases hs : (getString maxKeyStrSize t).isSome with
    | false => simp [h.1]
    | true =>
      have := ih (i := i+1) h.2
      simp only [h.1,true_and,if_true,List.length_cons,this,forall_const]
      omega

variable (c : Client) (env : Env) (w : World)

theorem keySelect_inside_iff (nameSpace set key list : Term) :
    Inside (keySelectWith R c env nameSpace set key list) w ↔
      ∀ k ts, stringKey nameSpace set key = .ok k → list = ofList ts →
        w.isConnectedFlag = true → ts = [] ∨ NamesInside R 0 ts := by
  unfold keySelectWith
  rw [inside_listCall]
  refine forall₄_congr fun k ts _ hl => imp_congr_right fun _ => ?_
  subst hl
  cases ts with
  | nil => exact ⟨fun _ => .inl rfl,fun _ => inside_pure _ w⟩
  | cons t ts =>
    rw [if_neg (by simp),inside_lift_bind]
    have hnames : Avoids beyond (selectArray R (t::ts).length (ofList (t::ts))) ↔
        NamesInside R 0 (t::ts) := avoids_selectNamesWith R (t::ts) []
    rw [hnames]
    refine ⟨fun h => .inr h.1,fun h => ⟨h.resolve_left (List.cons_ne_nil t ts),fun bins _ => ?_⟩⟩
    refine (inside_submit_bind env (.keySelect k bins) _ w).mpr ?_
    split_ifs
    · exact inside_pure _ _
    · cases (env.respond (w.submitted ++ [.keySelect k bins])).record with
      | none => exact inside_stop (r := .fault .nullPointer) (fun h => nomatch h) _
      | some rec =>
        refine (inside_lift_bind _ _ _).mpr ⟨avoids_orFault (dumpRecords_avoids c rec),?_⟩
        exact fun msg _ => inside_pure _ _

end NameLists

section SingleNames
variable (R : StringReader) (c : Client) (env : Env)

theorem inside_putLoop (k : AsKey) (rec : PutRecord) (n : ℤ) (fuel : ℕ) (i : UInt32) (w : World) :
    Inside (putLoop env k rec n fuel i) w := by
  induction fuel generalizing i w with
  | zero => exact inside_stop (r := .fault .outOfFuel) (fun h => nomatch h) w
  | succ fuel ih =>
    unfold putLoop
    split_ifs
    · refine (inside_submit_bind env (.keyPut k rec) _ w).mpr ?_
      split_ifs
      · exact inside_pure _ _
      · exact ih _ _
    · exact inside_pure _ _

theorem aKeyPut_inside_iff (bin val nameSpace set key n : Term) (w : World) :
    Inside (aKeyPutWith R c env bin val nameSpace set key n) w ↔
      R.extent asUserSize bin ≤ asBinNameMaxSize := by
  unfold aKeyPutWith
  rw [inside_lift_bind,avoids_textInto]
  refine ⟨And.left,fun h => ⟨h,fun bin _ => ?_⟩⟩
  refine (inside_lift_bind _ _ w).mpr ⟨avoids_orBadarg _,fun val _ => ?_⟩
  rw [stringKeyWith_eq]
  refine (inside_lift_bind _ _ w).mpr ⟨avoids_stringKey nameSpace set key,fun k _ => ?_⟩
  refine (inside_lift_bind _ _ w).mpr ⟨avoids_orBadarg _,fun n _ => ?_⟩
  refine (inside_isConnected_bind _ w).mpr fun _ => inside_bind (inside_putLoop env _ _ _ _ _ w) ?_
  intro failed t
  cases failed with
  | some msg => exact inside_pure _ t
  | none =>
    dsimp only
    split_ifs
    · exact inside_stop (r := .fault .divisionByZero) (fun h => nomatch h) t
    · exact inside_pure _ t

theorem nodeGet_inside_iff (nodes : Nodes) (name : Term) (w : World) :
    Inside (nodeGetWith R nodes name) w ↔ R.extent asUserSize name ≤ nodes.asNodeNameMaxSize := by
  unfold nodeGetWith
  rw [inside_lift_bind,avoids_textInto]
  refine ⟨And.left,fun h => ⟨h,fun name _ => (inside_isConnected_bind _ w).mpr fun _ => ?_⟩⟩
  show Inside (match nodes.addressString (cStr name) with
    | none => return errorString "Failed to find server node."
    | some address => return okString address) _
  cases nodes.addressString (cStr name) <;> exact inside_pure _ _

end SingleNames

section Calls

/-- The operations and their arguments. -/
inductive CharListCall where
  | keyPut (nameSpace set key list : Term)
  | keyInc (nameSpace set key list : Term)
  | keySelect (nameSpace set key list : Term)
  | aKeyPut (bin val nameSpace set key n : Term)
  | nodeGet (name : Term)

variable (c : Client) (env : Env) (nodes : Nodes)

def CharListCall.run (R : StringReader) : CharListCall → Nif Term
  | .keyPut nameSpace set key list => keyPutWith R c env nameSpace set key list
  | .keyInc nameSpace set key list => keyIncWith R c env nameSpace set key list
  | .keySelect nameSpace set key list => keySelectWith R c env nameSpace set key list
  | .aKeyPut bin val nameSpace set key n => aKeyPutWith R c env bin val nameSpace set key n
  | .nodeGet name => nodeGetWith R nodes name

/-- The call reaches no `enif_get_string` whose size is larger than its array. -/
def CharListCall.NoName (w : World) : CharListCall → Prop
  | .keyPut nameSpace set key list | .keyInc nameSpace set key list =>
    ∀ k ts, stringKey nameSpace set key = .ok k → list = ofList ts → w.isConnectedFlag = true →
      ∀ name val, ts.head? ≠ some (.tuple [name,val])
  | .keySelect nameSpace set key list =>
    ∀ k ts, stringKey nameSpace set key = .ok k → list = ofList ts → w.isConnectedFlag = true →
      ts = []
  | .aKeyPut _ _ _ _ _ _ => False
  | .nodeGet _ => asUserSize ≤ nodes.asNodeNameMaxSize

theorem pairsInside_all (ts : List Term) :
    (∀ R, PairsInside R ts) ↔ ∀ name val, ts.head? ≠ some (.tuple [name,val]) := by
  constructor
  · intro h name val hhead
    obtain ⟨rest,rfl⟩ := List.head?_eq_some_iff.mp hhead
    have hread := h greedyReader [] _ rest rfl (fun y hy => absurd hy List.not_mem_nil)
    exact absurd ((avoids_readIntegerBinWith greedyReader _).mp hread name val rfl)
      (show ¬maxSetSize ≤ asBinNameMaxSize by decide)
  · rintro h R init x post rfl hinit
    refine (avoids_readIntegerBinWith R x).mpr ?_
    rintro name val rfl
    cases init with
    | nil => exact absurd rfl (h name val)
    | cons y init =>
      -- the first element is no pair, so the loop has not come past it
      obtain ⟨b,hb⟩ := hinit y (by simp)
      obtain ⟨elements,hel,hread⟩ := succeeds_bind.mp ⟨b,hb⟩
      cases y <;> cases hel
      match elements with
      | [name',val'] => exact absurd rfl (h name' val')
      | [] => exact absurd hread (not_succeeds_error _)
      | [_] => exact absurd hread (not_succeeds_error _)
      | _::_::_::_ => exact absurd hread (not_succeeds_error _)

theorem namesInside_all (ts : List Term) : (∀ R, ts = [] ∨ NamesInside R 0 ts) ↔ ts = [] := by
  refine ⟨fun h => ?_,fun h R => .inl h⟩
  cases ts with
  | nil => rfl
  | cons t ts =>
    have hnames := (h greedyReader).resolve_left (List.cons_ne_nil t ts)
    exact absurd hnames.1 (show ¬maxKeyStrSize ≤ asBinNameMaxSize by decide)

/-- The assumption about the reader concerns the list only, not the arguments
before it. -/
theorem each_reader {P : StringReader → List Term → Prop} {Q : List Term → Prop}
    (hread : ∀ ts, (∀ R, P R ts) ↔ Q ts) (nameSpace set key list : Term) (w : World) :
    (∀ R k ts, stringKey nameSpace set key = .ok k → list = ofList ts →
        w.isConnectedFlag = true → P R ts) ↔
      ∀ k ts, stringKey nameSpace set key = .ok k → list = ofList ts →
        w.isConnectedFlag = true → Q ts := by
  constructor
  · intro h k ts hk hl hw
    exact (hread ts).mp fun R => h R k ts hk hl hw
  · intro h R k ts hk hl hw
    exact (hread ts).mpr (h k ts hk hl hw) R

theorem char_list_stores_inside_iff (call : CharListCall) (w : World) :
    (∀ R, Inside (call.run c env nodes R) w) ↔ call.NoName nodes w := by
  cases call with
  | keyPut nameSpace set key list =>
    simp only [CharListCall.run,CharListCall.NoName,keyPut_inside_iff]
    exact each_reader pairsInside_all nameSpace set key list w
  | keyInc nameSpace set key list =>
    simp only [CharListCall.run,CharListCall.NoName,keyInc_inside_iff]
    exact each_reader pairsInside_all nameSpace set key list w
  | keySelect nameSpace set key list =>
    simp only [CharListCall.run,CharListCall.NoName,keySelect_inside_iff]
    exact each_reader namesInside_all nameSpace set key list w
  | aKeyPut bin val nameSpace set key n =>
    simp only [CharListCall.run,CharListCall.NoName,aKeyPut_inside_iff]
    exact ⟨fun h => absurd (h greedyReader) (show ¬asUserSize ≤ asBinNameMaxSize by decide),False.elim⟩
  | nodeGet name =>
    simp only [CharListCall.run,CharListCall.NoName,nodeGet_inside_iff]
    exact ⟨fun h => h greedyReader,fun h R => (R.within asUserSize name).trans h⟩

/-- A bin name of 16 characters: its final zero is stored beyond the array. -/
def longName : Term := ofList (List.replicate 16 (.integer 97))

def manyNames : List Term := List.replicate 1024 (ofList [.integer 97])

/-- The plain reader is enough: a name too long for `key_put`, and for
`key_select` as many short names as there are slots, so that the final `NULL`
has none. -/
theorem plain_stores_outside :
    ¬Inside ((CharListCall.keyPut longName longName longName
        (ofList [.tuple [longName,.integer 1]])).run plainClient plainEnv ⟨20,fun _ => none⟩
      plainReader) connectedWorld ∧
    ¬Inside ((CharListCall.keySelect longName longName longName (ofList manyNames)).run
        plainClient plainEnv ⟨20,fun _ => none⟩ plainReader) connectedWorld := by
  constructor
  · intro h
    have hread := (keyPut_inside_iff plainReader plainClient plainEnv connectedWorld _ _ _ _).mp h
      _ _ rfl rfl rfl [] _ [] rfl (fun y hy => absurd hy List.not_mem_nil)
    have hlen := (avoids_readIntegerBinWith plainReader _).mp hread longName (.integer 1) rfl
    exact absurd hlen (by decide)
  · intro h
    have hlen : manyNames.length = 1024 := List.length_replicate
    have hne : manyNames ≠ [] := List.ne_nil_of_length_pos (by omega)
    have hnames := ((keySelect_inside_iff plainReader plainClient plainEnv connectedWorld _ _ _ _).mp h
      _ manyNames rfl rfl rfl).resolve_left hne
    rw [namesInside_of_fitting plainReader (fun t ht => by
      rw [List.eq_of_mem_replicate ht]
      decide)] at hnames
    rw [List.takeWhile_eq_self_iff.mpr (fun t ht => by
      rw [List.eq_of_mem_replicate ht]
      decide)] at hnames
    rw [hlen] at hnames
    exact absurd hnames (by decide)

end Calls

end AspikePort.CharListStores
