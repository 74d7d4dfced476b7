import AspikePort.RecordKeys
import Mathlib.Algebra.Group.Nat.Defs

/-!
# The ttl and the limits in a request

Five functions put a ttl into their request and four a policy. Both are fields
of 32 bits, and the largest ttls are codes of the client. The arguments are
read as 64-bit integers, if at all, and stored in these fields.
-/

set_option autoImplicit false

namespace AspikePort.RequestLimits
open AspikePort.ErlangTerms AspikePort.ClientValues AspikePort.EarlyReturn AspikePort.NifWorld
open AspikePort.CdtPut AspikePort.PutOperations AspikePort.SyncCalls AspikePort.AsyncCalls
open AspikePort.Lifecycle AspikePort.FallibleLoops AspikePort.RecordKeys Proc

section Words

theorem toNat_ofInt (i : ℤ) : ((UInt32.ofInt i).toNat : ℤ) = i%2^32 := by
  unfold UInt32.ofInt
  rw [UInt32.toNat_ofNat']
  omega

theorem toNat_ofInt_eq_iff (i : ℤ) : ((UInt32.ofInt i).toNat : ℤ) = i ↔ 0 ≤ i ∧ i < 2^32 := by
  rw [toNat_ofInt]
  omega

end Words

section Codes

/-- Default, never expire, do not change, default of the client. -/
def specialTtls : List UInt32 := [0,UInt32.ofInt (-1),recordNoChangeTtl,recordClientDefaultTtl]

theorem mem_specialTtls {code : UInt32} :
    code ∈ specialTtls ↔ code.toNat = 0 ∨ 2^32-3 ≤ code.toNat := by
  have hlt := code.toNat_lt
  have h0 : (0:UInt32).toNat = 0 := rfl
  have h1 : (UInt32.ofInt (-1)).toNat = 2^32-1 := rfl
  have h2 : recordNoChangeTtl.toNat = 2^32-2 := rfl
  have h3 : recordClientDefaultTtl.toNat = 2^32-3 := rfl
  simp only [specialTtls,List.mem_cons,List.not_mem_nil,or_false,← UInt32.toNat_inj,h0,h1,h2,h3]
  omega

/-- A positive ttl stands for itself. A zero may be any special code, and the
three negative ttls are the codes of the same value. -/
def Represents (i : ℤ) (code : UInt32) : Prop :=
  if 0 < i then (code.toNat : ℤ) = i ∧ code ∉ specialTtls
  else -3 ≤ i ∧ code ∈ specialTtls ∧ (i ≠ 0 → code = UInt32.ofInt i)

def HasCode (i : ℤ) : Prop := -3 ≤ i ∧ i < 2^32-3

instance (i : ℤ) : Decidable (HasCode i) := inferInstanceAs (Decidable (_ ∧ _))

theorem Represents.hasCode {i : ℤ} {code : UInt32} (h : Represents i code) : HasCode i := by
  unfold Represents at h
  split_ifs at h with hi
  · have hspecial := mt mem_specialTtls.mpr h.2
    unfold HasCode
    omega
  · unfold HasCode
    omega

theorem HasCode.represents {i : ℤ} (h : HasCode i) : Represents i (UInt32.ofInt i) := by
  unfold HasCode at h
  have hval := toNat_ofInt i
  unfold Represents
  rw [mem_specialTtls]
  split_ifs with hi
  · omega
  · refine ⟨h.1,?_,fun _ => rfl⟩
    omega

theorem HasCode.represents_init {i : ℤ} (h : HasCode i) :
    Represents i (initOperations i).ttl := by
  unfold initOperations
  by_cases hi : i = 0
  · subst hi
    unfold Represents
    decide
  · rw [if_pos hi]
    exact h.represents

def requestTtls : Request → List UInt32
  | .keyPut _ rec => [rec.ttl]
  | .keyOperate _ ops policy => ops.ttl::policy.toList.map PolicyOperate.ttl
  | .batchWrite records => records.map (fun r => r.ops.ttl)
  | _ => []

end Codes

section TtlCalls

inductive TtlFunction where
  | cdtPutSync | cdtPutAsync | binaryPut | binaryRemove | mapPut
  deriving DecidableEq, Repr

/-- The ttl argument of a call that has one and looks at it. -/
def ttlOf : DataCall → Option (TtlFunction × Term)
  | .cdtPutSync _ _ _ _ ttl _ => some (.cdtPutSync,ttl)
  | .cdtPutAsync _ _ _ _ _ ttl _ => some (.cdtPutAsync,ttl)
  | .binaryPutSync _ _ _ _ ttl => some (.binaryPut,ttl)
  | .binaryRemoveSync _ _ _ _ ttl => some (.binaryRemove,ttl)
  | .mapPutSync _ _ _ _ ttl _ => some (.mapPut,ttl)
  | _ => none

/-- The check each function makes of the term. -/
def TtlFunction.accepts : TtlFunction → Term → Bool
  | .mapPut, ttl => isNumber ttl
  | _, ttl => (getLong ttl).isSome

/-- The value it goes on with. -/
def TtlFunction.reads (env : Env) : TtlFunction → Term → Option ℤ
  | .mapPut, ttl => if isNumber ttl then some ((getLong ttl).getD env.uninit) else none
  | _, ttl => getLong ttl

def TtlFunction.codes (i : ℤ) : TtlFunction → List UInt32
  | .cdtPutSync => [(initOperations i).ttl,UInt32.ofInt i]
  | .cdtPutAsync => [(initOperations i).ttl,UInt32.ofInt i]
  | _ => [UInt32.ofInt i]

theorem HasCode.represents_codes {i : ℤ} (h : HasCode i) (f : TtlFunction) :
    ∀ code ∈ f.codes i, Represents i code := by
  cases f <;>
    simp [TtlFunction.codes,h.represents,h.represents_init]

variable {c : Client} {env : Env} {f : TtlFunction} {ttl : Term}

theorem accepts_iff (env : Env) (f : TtlFunction) (ttl : Term) :
    f.accepts ttl = true ↔ ∃ i, f.reads env ttl = some i := by
  rw [← Option.isSome_iff_exists]
  cases f with
  | mapPut =>
    unfold TtlFunction.accepts TtlFunction.reads
    by_cases h : isNumber ttl = true <;> simp [h]
  | _ => exact Iff.rfl

theorem putBin_ttl (now : ℤ) (bin : Bytes) {data : Term} {length : ℕ} (ops : Operations)
    (h : getListLength data = some length) : (putBin c now bin data length ops).ttl = ops.ttl := by
  obtain ⟨ts,rfl,rfl⟩ := getListLength_some h
  unfold putBin
  rw [cells_ofList,putElements_ops]

theorem readBin_length {bin : Term} {name : Bytes} {data : Term} {length : ℕ}
    (h : readBin bin = .ok (name,data,length)) : getListLength data = some length := by
  have hyields : Yields (fun r => getListLength r.2.1 = some r.2.2) (readBin bin) := by
    refine yields_bind fun elements _ => ?_
    match elements with
    | [name,data] =>
      exact yields_bind fun name _ => yields_bind fun length hl => yields_ok (orBadarg_ok hl)
    | [] => exact yields_error _ _
    | [_] => exact yields_error _ _
    | _::_::_::_ => exact yields_error _ _
  exact hyields _ h

theorem putSyncBins_ttl (now t : ℤ) (n : ℕ) (list : Term) (ops : Operations)
    (h : ops.ttl = (initOperations t).ttl) :
    Yields (fun ops => ops.ttl = (initOperations t).ttl) (putSyncBins c now t n list ops) := by
  induction n generalizing ops with
  | zero => exact yields_ok h
  | succ n ih =>
    unfold putSyncBins
    cases getListCell list with
    | none => exact yields_ok h
    | some cell =>
      exact yields_bind fun r hr => ih _ (putBin_ttl now r.1 _ (readBin_length hr))

/-- The operations object is initialised for each bin, so also for the first. -/
theorem putSyncBins_inits (now t : ℤ) {n : ℕ} {list : Term} (ops : Operations)
    (hl : getListLength list = some n) (hn : n ≠ 0) :
    Yields (fun ops => ops.ttl = (initOperations t).ttl) (putSyncBins c now t n list ops) := by
  obtain ⟨ts,rfl,rfl⟩ := getListLength_some hl
  cases ts with
  | nil => exact absurd rfl hn
  | cons bin ts =>
    exact yields_bind fun r hr =>
      putSyncBins_ttl now t ts.length _ _ (putBin_ttl now r.1 _ (readBin_length hr))

theorem putAsyncBins_ttl (now : ℤ) (ts : List Term) (ops : Operations) :
    Yields (fun ops' => ops'.ttl = ops.ttl) (putAsyncBins c now ts.length (ofList ts) ops) := by
  unfold putAsyncBins
  rw [cellsExcept_ofList]
  refine yields_foldlM (fun s bin hs => ?_) ts rfl
  refine yields_bind fun r hr => yields_ok ?_
  rw [putBin_ttl now r.1 s,hs]
  cases hbin : readBin bin with
  | ok r' =>
    rw [hbin] at hr
    exact readBin_length (hbin.trans hr)
  | error e =>
    rw [hbin] at hr
    cases hr

theorem setBin_ttl (rec : PutRecord) (name : Bytes) (v : AsVal) :
    (setBin c rec name v).ttl = rec.ttl := by
  unfold setBin PutRecord.set
  split_ifs <;> rfl

theorem putBinaryBin_ttl (rec : PutRecord) (bin : Term) :
    Yields (fun rec' => rec'.ttl = rec.ttl) (putBinaryBin c rec bin) := by
  refine yields_bind fun elements _ => ?_
  match elements with
  | [name,value] =>
    refine yields_bind fun name _ => ?_
    cases inspectBinary value with
    | some data => exact yields_ok (setBin_ttl rec name _)
    | none =>
      by_cases hnumber : isNumber value = true
      · simp only [if_pos hnumber]
        cases getInt64 value with
        | some i => exact yields_ok (setBin_ttl rec name _)
        | none => exact yields_ok rfl
      · by_cases hatom : isAtom value = true
        · simp only [if_neg hnumber,if_pos hatom]
          exact yields_ok (setBin_ttl rec name _)
        · simp only [if_neg hnumber,if_neg hatom]
          exact yields_bind fun length _ => yields_ok (setBin_ttl rec name _)
  | [] => exact yields_error _ _
  | [_] => exact yields_error _ _
  | _::_::_::_ => exact yields_error _ _

theorem removeBins_ttl (n : ℕ) (list : Term) (rec : PutRecord) :
    Yields (fun rec' => rec'.ttl = rec.ttl) (removeBins c n list rec) := by
  induction n generalizing rec with
  | zero => exact yields_ok rfl
  | succ n ih =>
    unfold removeBins
    cases getListCell list with
    | none => exact yields_ok rfl
    | some cell =>
      refine yields_bind fun name _ => ?_
      have hrest := ih (setBin c rec name .nil)
      rwa [setBin_ttl] at hrest

/-- The request has the ttls the function makes of the value it goes on with. -/
def Carries (env : Env) (f : TtlFunction) (ttl : Term) (r : Request) : Prop :=
  ∃ i, f.reads env ttl = some i ∧ requestTtls r = f.codes i

theorem put_carries {k : AsKey} {rec : PutRecord} {i : ℤ} (hf : f.codes i = [UInt32.ofInt i])
    (hread : f.reads env ttl = some i) (hrec : rec.ttl = UInt32.ofInt i) :
    Carries env f ttl (.keyPut k rec) := by
  refine ⟨i,hread,?_⟩
  rw [hf]
  exact congrArg ([·]) hrec

theorem operate_carries {k : AsKey} {ops : Operations} {p : Policy} {i : ℤ}
    (hf : f.codes i = [(initOperations i).ttl,UInt32.ofInt i])
    (hread : f.reads env ttl = some i) (hops : ops.ttl = (initOperations i).ttl) :
    Carries env f ttl (.keyOperate k ops (some ⟨p,UInt32.ofInt i⟩)) := by
  refine ⟨i,hread,?_⟩
  rw [hf,← hops]
  rfl

theorem call_carries (c : Client) (env : Env) {x : DataCall} (h : ttlOf x = some (f,ttl)) :
    Sends (Carries env f ttl) (fun _ => True) (x.body c env) := by
  cases x with
  | cdtPutSync =>
    cases h
    refine sends_lift_bind (fun k _ => sends_lift_bind (fun n hn => ?_))
    refine sends_lift_bind (fun t ht => sends_lift_bind (fun p _ => ?_))
    by_cases hzero : n = 0
    · rw [if_pos hzero]
      exact sends_pure _
    · rw [if_neg hzero]
      refine sends_isConnected_bind (sends_lift_bind (fun ops hops => ?_))
      refine submit_sends env ?_ (fun r => sends_ite (sends_pure _) (sends_pure _))
      exact operate_carries rfl (orBadarg_ok ht)
        (putSyncBins_inits env.now t _ (orBadarg_ok hn) hzero ops hops)
  | cdtPutAsync =>
    cases h
    refine Sends.bind (R := fun job => Carries env .cdtPutAsync ttl job.request) ?_
      (fun job hjob => sends_submitAsync hjob)
    refine sends_lift_bind (fun k _ => sends_lift_bind (fun n hn => ?_))
    obtain ⟨ts,rfl,rfl⟩ := getListLength_ok hn
    apply sends_ite (sends_stop _)
    refine sends_isConnected_bind (sends_lift_bind (fun t ht => sends_lift_bind (fun p _ => ?_)))
    refine sends_lift_bind (fun total _ => sends_lift_bind (fun ops hops => sends_result ?_))
    exact operate_carries rfl (orBadarg_ok ht) (putAsyncBins_ttl env.now ts _ ops hops)
  | binaryPutSync =>
    cases h
    refine sends_lift_bind (fun k _ => sends_lift_bind (fun n hn => sends_lift_bind (fun t ht => ?_)))
    obtain ⟨ts,rfl,rfl⟩ := getListLength_ok hn
    apply sends_ite (sends_pure _)
    refine sends_isConnected_bind (sends_lift_bind (fun rec hrec => ?_))
    refine sends_submit_bind (put_carries rfl (orBadarg_ok ht) ?_) (fun r => sends_pure _)
    have hkeep : ∀ (s : PutRecord) (x : Term), s.ttl = UInt32.ofInt t →
        Yields (fun s => s.ttl = UInt32.ofInt t) (putBinaryBin c s x) := by
      intro s x hs
      rw [← hs]
      exact putBinaryBin_ttl s x
    rw [cellsExcept_ofList] at hrec
    exact yields_foldlM (I := fun s => s.ttl = UInt32.ofInt t) hkeep ts rfl rec hrec
  | binaryRemoveSync =>
    cases h
    refine sends_lift_bind (fun k _ => sends_lift_bind (fun n _ => sends_lift_bind (fun t ht => ?_)))
    apply sends_ite (sends_pure _)
    refine sends_isConnected_bind (sends_lift_bind (fun rec hrec => ?_))
    exact sends_submit_bind (put_carries rfl (orBadarg_ok ht) (removeBins_ttl _ _ _ rec hrec))
      (fun r => sends_pure _)
  | mapPutSync =>
    cases h
    refine sends_lift_bind (fun k _ => sends_lift_bind (fun b _ => ?_))
    by_cases hnumber : isNumber ttl = true
    · rw [if_neg (not_not_intro hnumber)]
      refine sends_lift_bind (fun pairs _ => sends_isConnected_bind ?_)
      refine sends_lift_bind (fun es _ => sends_lift_bind (fun rec hrec => ?_))
      refine sends_submit_bind (put_carries rfl (if_pos hnumber) ?_)
        (fun r => sends_ite (sends_pure _) (sends_pure _))
      have hset := orBadarg_ok hrec
      unfold PutRecord.set at hset
      split_ifs at hset <;> rw [← Option.some.inj hset]
    · rw [if_pos hnumber]
      exact sends_stop _
  | _ => cases h

/-- What a call hands to the client. -/
def handed (c : Client) (env : Env) (x : DataCall) (w : World) : List Request :=
  (x.body c env w).2.submitted.drop w.submitted.length

theorem handed_of_sends {V : Request → Prop} {x : DataCall} {w : World}
    (h : Sends V (fun _ => True) (x.body c env)) : ∀ r ∈ handed c env x w, V r := by
  obtain ⟨⟨reqs,hreqs,hall⟩,-⟩ := h w
  unfold handed
  rw [hreqs,List.drop_left]
  exact hall

/-- Whatever else the call is given, its request has one row of ttls that the
term alone decides, and each of them represents the integer. -/
def TtlKept (f : TtlFunction) (ttl : Term) : Prop :=
  ∃ codes, (∀ code ∈ codes, ∃ i, ttl = .integer i ∧ Represents i code) ∧
    ∀ c env x w, ttlOf x = some (f,ttl) → ∀ r ∈ handed c env x w, requestTtls r = codes

def oneName : Term := .binary [97]
def noLimits : Term := .tuple [.integer 0,.integer 0,.integer 0,.integer 0]

/-- A call with nothing wrong in it but perhaps its ttl. -/
def TtlFunction.sample (ttl : Term) : TtlFunction → DataCall
  | .cdtPutSync => .cdtPutSync oneName oneName oneName (ofList [.tuple [oneName,.nil]]) ttl noLimits
  | .cdtPutAsync =>
    .cdtPutAsync (.reference 0) oneName oneName oneName (ofList [.tuple [oneName,.nil]]) ttl noLimits
  | .binaryPut => .binaryPutSync oneName oneName oneName (ofList [.tuple [oneName,oneName]]) ttl
  | .binaryRemove => .binaryRemoveSync oneName oneName oneName (ofList [oneName]) ttl
  | .mapPut => .mapPutSync oneName oneName oneName oneName ttl (.map [])

theorem ttlOf_sample (f : TtlFunction) (ttl : Term) : ttlOf (f.sample ttl) = some (f,ttl) := by
  cases f <;> rfl

theorem sample_hands (h : f.accepts ttl = true) :
    ∃ r ∈ handed plainClient plainEnv (f.sample ttl) connectedWorld, requestTtls r ≠ [] := by
  obtain ⟨i,hi⟩ := (accepts_iff plainEnv f ttl).mp h
  cases f with
  | mapPut =>
    have hnumber : isNumber ttl = true := h
    dsimp only [handed,TtlFunction.sample,DataCall.body,SyncCalls.mapPutSync]
    simp only [hnumber,not_true_eq_false,if_false]
    exact ⟨_,List.mem_singleton_self _,List.cons_ne_nil _ _⟩
  | cdtPutSync =>
    have hread : orBadarg (getLong ttl) = .ok i := congrArg orBadarg hi
    dsimp only [handed,TtlFunction.sample,DataCall.body,CdtPut.cdtPutSync]
    rw [hread]
    exact ⟨_,List.mem_singleton_self _,List.cons_ne_nil _ _⟩
  | cdtPutAsync =>
    have hread : orBadarg (getLong ttl) = .ok i := congrArg orBadarg hi
    dsimp only [handed,TtlFunction.sample,DataCall.body,CdtPut.cdtPutAsync,cdtPutAsyncJob]
    rw [hread]
    exact ⟨_,List.mem_singleton_self _,List.cons_ne_nil _ _⟩
  | binaryPut =>
    have hread : orBadarg (getLong ttl) = .ok i := congrArg orBadarg hi
    dsimp only [handed,TtlFunction.sample,DataCall.body,SyncCalls.binaryPutSync]
    rw [hread]
    exact ⟨_,List.mem_singleton_self _,List.cons_ne_nil _ _⟩
  | binaryRemove =>
    have hread : orBadarg (getLong ttl) = .ok i := congrArg orBadarg hi
    dsimp only [handed,TtlFunction.sample,DataCall.body,SyncCalls.binaryRemoveSync]
    rw [hread]
    exact ⟨_,List.mem_singleton_self _,List.cons_ne_nil _ _⟩

theorem TtlKept.hasCode (h : TtlKept f ttl) (hacc : f.accepts ttl = true) :
    ∃ i, ttl = .integer i ∧ HasCode i := by
  obtain ⟨codes,hcodes,hcalls⟩ := h
  obtain ⟨r,hr,hne⟩ := sample_hands hacc
  rw [hcalls _ _ _ _ (ttlOf_sample f ttl) r hr] at hne
  obtain ⟨code,hcode⟩ := List.exists_mem_of_ne_nil codes hne
  obtain ⟨i,hi,hrep⟩ := hcodes code hcode
  exact ⟨i,hi,hrep.hasCode⟩

theorem HasCode.reads {i : ℤ} (h : HasCode i) (env : Env) (f : TtlFunction) :
    f.reads env (.integer i) = some i := by
  have hlong : getLong (.integer i) = some i := by
    unfold HasCode at h
    exact getLong_integer (by omega)
  cases f with
  | mapPut => simp [TtlFunction.reads,isNumber,hlong]
  | _ => exact hlong

theorem ttl_kept_iff (f : TtlFunction) (ttl : Term) :
    TtlKept f ttl ↔ (f.accepts ttl = true → ∃ i, ttl = .integer i ∧ HasCode i) := by
  constructor
  · exact TtlKept.hasCode
  · intro h
    by_cases hacc : f.accepts ttl = true
    · obtain ⟨i,rfl,hi⟩ := h hacc
      refine ⟨f.codes i,fun code hcode => ⟨i,rfl,hi.represents_codes f code hcode⟩,?_⟩
      intro c env x w hx r hr
      obtain ⟨j,hj,hcodes⟩ := handed_of_sends (call_carries c env hx) r hr
      rw [hi.reads env f] at hj
      rw [hcodes,Option.some.inj hj]
    · refine ⟨[],fun code hcode => absurd hcode List.not_mem_nil,?_⟩
      intro c env x w hx r hr
      obtain ⟨j,hj,-⟩ := handed_of_sends (call_carries c env hx) r hr
      exact absurd ((accepts_iff env f ttl).mpr ⟨j,hj⟩) hacc

/-- A ttl of a hundred years and more comes to a minute, one of -4 to more than a
hundred years, and `map_put` takes a float for a ttl. -/
theorem wide_ttls_changed : ¬TtlKept .binaryPut (.integer (2^32+60)) ∧
    ¬TtlKept .cdtPutSync (.integer (-4)) ∧ ¬TtlKept .mapPut (.float 0) := by
  refine ⟨fun h => ?_,fun h => ?_,fun h => ?_⟩
  · obtain ⟨i,hi,hcode⟩ := h.hasCode (by decide)
    cases hi
    exact absurd hcode (by decide)
  · obtain ⟨i,hi,hcode⟩ := h.hasCode (by decide)
    cases hi
    exact absurd hcode (by decide)
  · obtain ⟨i,hi,-⟩ := h.hasCode rfl
    cases hi

end TtlCalls

section Policies

/-- The policy argument of the calls that take one. -/
def policyOf : DataCall → Option Term
  | .cdtPutSync _ _ _ _ _ policy => some policy
  | .cdtPutAsync _ _ _ _ _ _ policy => some policy
  | .cdtGetSync _ _ _ policy => some policy
  | .cdtGetAsync _ _ _ _ policy => some policy
  | _ => none

def requestPolicy : Request → Option Policy
  | .keyGet _ policy => policy
  | .keyOperate _ _ policy => policy.map PolicyOperate.base
  | _ => none

/-- `max_retries`, `socket_timeout` and `total_timeout`. -/
def Policy.limits (p : Policy) : UInt32 × UInt32 × UInt32 :=
  (p.maxRetries,p.socketTimeout,p.totalTimeout)

/-- The field holds the integer that was given for it. -/
def Given (t : Term) (field : UInt32) : Prop := t = .integer field.toNat

def FitsField (t : Term) : Prop := ∃ n : ℕ, t = .integer n ∧ n < 2^32

/-- A field that is set from the value that was read, or from a default. -/
def stored (initial : ℤ) (t : Term) : UInt32 := UInt32.ofInt ((getLong t).getD initial)

theorem Given.fits {t : Term} {field : UInt32} (h : Given t field) : FitsField t :=
  ⟨field.toNat,h,field.toNat_lt⟩

theorem FitsField.given {t : Term} (h : FitsField t) (initial : ℤ) : Given t (stored initial t) := by
  obtain ⟨n,rfl,hn⟩ := h
  have hlong := getLong_integer (i := n) (by omega)
  have hval := (toNat_ofInt_eq_iff n).mpr ⟨by omega,by omega⟩
  unfold Given stored
  rw [hlong,Option.getD_some,hval]

theorem FitsField.stored_eq {t : Term} (h : FitsField t) (initial initial' : ℤ) :
    stored initial t = stored initial' t := by
  obtain ⟨n,rfl,hn⟩ := h
  unfold stored
  rw [getLong_integer (i := n) (by omega)]
  rfl

/-- Some call with this policy argument hands the client a request with this
policy. -/
def HandedPolicy (policy : Term) (p : Option Policy) : Prop :=
  ∃ c env x w, policyOf x = some policy ∧ ∃ r ∈ handed c env x w, requestPolicy r = p

/-- All calls hand over the same limits, and these are the integers given. -/
def LimitsKept (policy : Term) : Prop :=
  ∃ limits : UInt32 × UInt32 × UInt32, ∀ p, HandedPolicy policy p →
    p.map Policy.limits = some limits ∧ ∃ retries sleep socket total,
      policy = .tuple [retries,sleep,socket,total] ∧ Given retries limits.1 ∧
        Given socket limits.2.1 ∧ Given total limits.2.2

/-- Only the synchronous functions look at `sleep_between_retries`. -/
def SleepKept (policy : Term) : Prop :=
  ∀ p field, HandedPolicy policy (some p) → p.sleepBetweenRetries = some field →
    ∃ retries sleep socket total, policy = .tuple [retries,sleep,socket,total] ∧ Given sleep field

variable {c : Client} {env : Env} {policy retries sleep socket total : Term}

theorem readPolicy_tuple : readPolicy (.tuple [retries,sleep,socket,total]) = .ok
    ⟨stored 0 retries,some (stored 0 sleep),stored 30000 socket,stored 1000 total⟩ := rfl

def IsRow (policy : Term) : Prop :=
  ∃ retries sleep socket total, policy = .tuple [retries,sleep,socket,total]

/-- Both readers fail on everything but a tuple of four. -/
theorem row_yields {f : List Term → Except Reply Policy}
    (hf : ∀ elements, (∀ a b c d, elements ≠ [a,b,c,d]) → f elements = .error .badarg) :
    Yields (fun _ => IsRow policy) (orBadarg (getTuple policy) >>= f) := by
  refine yields_bind fun elements helements p hp => ?_
  have htuple : policy = .tuple elements := by
    cases policy with
    | tuple _ => exact congrArg Term.tuple (Except.ok.inj helements)
    | _ => cases helements
  by_contra hrow
  have hne : ∀ a b c d, elements ≠ [a,b,c,d] := by
    rintro a b c d rfl
    exact hrow ⟨a,b,c,d,htuple⟩
  rw [hf elements hne] at hp
  cases hp

theorem readPolicy_row : Yields (fun _ => IsRow policy) (readPolicy policy) := by
  refine row_yields fun elements hne => ?_
  rcases elements with _ | ⟨a,_ | ⟨b,_ | ⟨c,_ | ⟨d,_ | _⟩⟩⟩⟩
  any_goals rfl
  exact absurd rfl (hne a b c d)

theorem readPolicyAsync_row : Yields (fun _ => IsRow policy) (readPolicyAsync policy) := by
  refine row_yields fun elements hne => ?_
  rcases elements with _ | ⟨a,_ | ⟨b,_ | ⟨c,_ | ⟨d,_ | _⟩⟩⟩⟩
  any_goals rfl
  exact absurd rfl (hne a b c d)

/-- The policy of a request is what one of the two readers makes of the term. -/
def ReadsPolicy (policy : Term) (r : Request) : Prop :=
  ∃ p, requestPolicy r = some p ∧ (readPolicy policy = .ok p ∨ readPolicyAsync policy = .ok p)

theorem call_policy (c : Client) (env : Env) {x : DataCall} (h : policyOf x = some policy) :
    Sends (ReadsPolicy policy) (fun _ => True) (x.body c env) := by
  cases x with
  | cdtPutSync =>
    cases h
    refine sends_lift_bind (fun k _ => sends_lift_bind (fun n _ => ?_))
    refine sends_lift_bind (fun t _ => sends_lift_bind (fun p hp => ?_))
    apply sends_ite (sends_pure _)
    refine sends_isConnected_bind (sends_lift_bind (fun ops _ => ?_))
    exact submit_sends env ⟨p,rfl,.inl hp⟩ (fun r => sends_ite (sends_pure _) (sends_pure _))
  | cdtPutAsync =>
    cases h
    refine Sends.bind (R := fun job => ReadsPolicy policy job.request) ?_
      (fun job hjob => sends_submitAsync hjob)
    refine sends_lift_bind (fun k _ => sends_lift_bind (fun n _ => ?_))
    apply sends_ite (sends_stop _)
    refine sends_isConnected_bind (sends_lift_bind (fun t _ => sends_lift_bind (fun p hp => ?_)))
    refine sends_lift_bind (fun total _ => sends_lift_bind (fun ops _ => ?_))
    exact sends_result ⟨p,rfl,.inr hp⟩
  | cdtGetSync =>
    cases h
    refine sends_lift_bind (fun k _ => sends_lift_bind (fun p hp => sends_isConnected_bind ?_))
    refine submit_sends env ⟨p,rfl,.inl hp⟩ (fun r => ?_)
    apply sends_ite (sends_pure _)
    cases r.record with
    | none => exact sends_pure _
    | some rec => exact sends_lift_bind (fun msg _ => sends_pure _)
  | cdtGetAsync =>
    cases h
    refine Sends.bind (R := fun job => ReadsPolicy policy job.request) ?_
      (fun job hjob => sends_submitAsync hjob)
    refine sends_lift_bind (fun k _ => sends_lift_bind (fun p hp => sends_isConnected_bind ?_))
    exact sends_result ⟨p,rfl,.inr hp⟩
  | _ => cases h

theorem handed_reads {p : Option Policy} (h : HandedPolicy policy p) :
    ∃ p', p = some p' ∧ (readPolicy policy = .ok p' ∨ readPolicyAsync policy = .ok p') := by
  obtain ⟨c,env,x,w,hx,r,hr,rfl⟩ := h
  exact handed_of_sends (call_policy c env hx) r hr

theorem handed_row {p : Option Policy} (h : HandedPolicy policy p) : IsRow policy := by
  obtain ⟨p',-,hread | hread⟩ := handed_reads h
  · exact readPolicy_row p' hread
  · exact readPolicyAsync_row p' hread

theorem sample_policy {p : Policy} (h : readPolicy policy = .ok p) :
    HandedPolicy policy (some p) := by
  refine ⟨plainClient,plainEnv,.cdtGetSync oneName oneName oneName policy,connectedWorld,rfl,?_⟩
  dsimp only [handed,DataCall.body,SyncCalls.cdtGetSync]
  rw [h]
  exact ⟨_,List.mem_singleton_self _,rfl⟩

theorem limits_kept_iff : LimitsKept policy ↔ ∀ retries sleep socket total,
    policy = .tuple [retries,sleep,socket,total] →
      FitsField retries ∧ FitsField socket ∧ FitsField total := by
  constructor
  · rintro ⟨limits,hall⟩ retries sleep socket total rfl
    obtain ⟨-,r,_,s,t,heq,hr,hs,ht⟩ := hall _ (sample_policy readPolicy_tuple)
    cases heq
    exact ⟨hr.fits,hs.fits,ht.fits⟩
  · intro h
    by_cases hrow : IsRow policy
    · obtain ⟨retries,sleep,socket,total,rfl⟩ := hrow
      obtain ⟨hr,hs,ht⟩ := h retries sleep socket total rfl
      refine ⟨(stored 0 retries,stored 0 socket,stored 0 total),fun p hp => ⟨?_,?_⟩⟩
      · obtain ⟨p',rfl,hread | hread⟩ := handed_reads hp
        · cases hread
          show some (_,stored 30000 socket,stored 1000 total) = _
          rw [hs.stored_eq 30000 0,ht.stored_eq 1000 0]
          rfl
        · cases hread
          rfl
      · exact ⟨retries,sleep,socket,total,rfl,hr.given 0,hs.given 0,ht.given 0⟩
    · exact ⟨(0,0,0),fun p hp => absurd (handed_row hp) hrow⟩

theorem sleep_kept_iff : SleepKept policy ↔ ∀ retries sleep socket total,
    policy = .tuple [retries,sleep,socket,total] → FitsField sleep := by
  constructor
  · rintro hall retries sleep socket total rfl
    obtain ⟨r,sl,s,t,heq,hsleep⟩ := hall _ _ (sample_policy readPolicy_tuple) rfl
    cases heq
    exact hsleep.fits
  · intro h p field hp hfield
    obtain ⟨retries,sleep,socket,total,rfl⟩ := handed_row hp
    obtain ⟨p',heq,hread | hread⟩ := handed_reads hp
    · cases heq
      cases hread
      cases hfield
      exact ⟨retries,sleep,socket,total,rfl,(h _ _ _ _ rfl).given 0⟩
    · cases heq
      cases hread
      cases hfield

/-- The limits, and the pause that only two of the functions pass on. -/
theorem policy_kept_iff (policy : Term) :
    (LimitsKept policy ↔ ∀ retries sleep socket total,
      policy = .tuple [retries,sleep,socket,total] →
        FitsField retries ∧ FitsField socket ∧ FitsField total) ∧
    (SleepKept policy ↔ ∀ retries sleep socket total,
      policy = .tuple [retries,sleep,socket,total] → FitsField sleep) :=
  ⟨limits_kept_iff,sleep_kept_iff⟩

/-- An atom for the total timeout is no integer a field could hold. -/
theorem atom_timeout_differs : ¬LimitsKept (.tuple [.integer 2,.integer 0,.integer 500,atomUndefined]) := by
  rintro ⟨limits,hall⟩
  obtain ⟨-,r,_,s,t,heq,-,-,ht⟩ := hall _ (sample_policy readPolicy_tuple)
  cases heq
  cases ht

end Policies

end AspikePort.RequestLimits
