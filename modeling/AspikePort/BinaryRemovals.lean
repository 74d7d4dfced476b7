import AspikePort.BinaryBins

/-!
# What binary_remove removes

The loop counts the names and stays on the first of them, so a request is right
only if there is no other.
-/

set_option autoImplicit false

namespace AspikePort.BinaryRemovals
open AspikePort.ErlangTerms AspikePort.ClientValues AspikePort.EarlyReturn AspikePort.NifWorld
open AspikePort.CdtPut AspikePort.PutOperations AspikePort.PutAgreement AspikePort.RecordServer AspikePort.SyncCalls
open AspikePort.StoreCalls Proc

section Removals

def nameTerms (names : List BinName) : Term := ofList (names.map (fun n => .binary n.data))

def removeCall (c : Client) (env : Env) (ns set key : Term) (names : List BinName) (ttl : Term) :
    Nif Term := binaryRemoveSync c env ns set key (nameTerms names) ttl

/-- The request sets the listed bins to nil, each once, and no other bin; and so
a server that takes it has none of them afterwards. -/
structure RemovesAll (names : List BinName) (rec : PutRecord) : Prop where
  listed : ∀ n ∈ names, (n.data,.nil) ∈ rec.bins
  only : ∀ b ∈ rec.bins, ∃ n ∈ names, b = (n.data,.nil)
  once : (rec.bins.map Prod.fst).Nodup
  count : (names.map BinName.data).Nodup → rec.bins.length = names.length
  absent : ∀ (S : Server), S.Documented → ∀ (k : AsKey) (db db' : S.DB),
    S.put k rec db = some db' → ∀ n ∈ names, S.bin db' k n.data = none
  others : ∀ (S : Server), S.Documented → ∀ (k : AsKey) (db db' : S.DB),
    S.put k rec db = some db' → ∀ m, (∀ n ∈ names, n.data ≠ m) → S.bin db' k m = S.bin db k m

/-- One request for the key that is asked for; without a name there is nothing to send. -/
def Removes (c : Client) (env : Env) (ns set key : Term) (names : List BinName) (ttl : Term)
    (w : World) : Prop :=
  names = [] ∧ submissions (removeCall c env ns set key names ttl) w = some [] ∨
    ∃ k rec, binaryKey ns set key = .ok k ∧ RemovesAll names rec ∧
      submissions (removeCall c env ns set key names ttl) w = some [.keyPut k rec]

end Removals

section Loop
variable {c : Client}

theorem set_nil_again (name : Bytes) (capacity : ℕ) (ttl : UInt32) (hname : c.takesBin (cStr name) = true) :
    setBin c ⟨capacity,ttl,[(cStr name,.nil)]⟩ name .nil = ⟨capacity,ttl,[(cStr name,.nil)]⟩ := by
  unfold setBin PutRecord.set
  simp [hname]

theorem removeBins_stays {n : ℕ} {name : Bytes} {tail : Term} {capacity : ℕ} {ttl : UInt32}
    (hname : c.takesBin (cStr name) = true) :
    removeBins c n (.cons (.binary name) tail) ⟨capacity,ttl,[(cStr name,.nil)]⟩ =
      .ok ⟨capacity,ttl,[(cStr name,.nil)]⟩ := by
  induction n with
  | zero => rfl
  | succ n ih =>
    show removeBins c n _ (setBin c _ name .nil) = _
    rw [set_nil_again name capacity ttl hname,ih]

theorem removeBins_first {n : ℕ} {name : Bytes} {tail : Term} {capacity : ℕ} {ttl : UInt32}
    (hname : c.takesBin (cStr name) = true) (hroom : 0 < capacity) :
    removeBins c (n+1) (.cons (.binary name) tail) ⟨capacity,ttl,[]⟩ =
      .ok ⟨capacity,ttl,[(cStr name,.nil)]⟩ := by
  have hset : setBin c ⟨capacity,ttl,[]⟩ name .nil = ⟨capacity,ttl,[(cStr name,.nil)]⟩ := by
    unfold setBin PutRecord.set
    simp [hname,hroom]
  show removeBins c n _ (setBin c _ name .nil) = _
  rw [hset]
  exact removeBins_stays hname

end Loop

section Runs
variable {c : Client} {env : Env} {w : World} {ns set key ttl : Term}

def removeRequest (k : AsKey) (n : BinName) (names : List BinName) (ttl : ℤ) : Request :=
  .keyPut k ⟨names.length+1,UInt32.ofInt ttl,[(n.data,.nil)]⟩

theorem remove_checked {k : AsKey} (hk : binaryKey ns set key = .ok k) (n : BinName)
    (names : List BinName) {t : ℤ} (httl : getLong ttl = some t) :
    removeCall c env ns set key (n::names) ttl w = (isConnected >>= fun _ =>
      lift (removeBins c (names.length+1) (nameTerms (n::names))
        ⟨names.length+1,UInt32.ofInt t,[]⟩) >>= fun rec =>
      submit env (.keyPut k rec) >>= fun r => pure (answerString r "key_put")) w := by
  have hlength : getListLength (nameTerms (n::names)) = some (names.length+1) := by
    unfold nameTerms
    rw [getListLength_ofList,List.length_map,List.length_cons]
  unfold removeCall binaryRemoveSync
  rw [hk,lift_ok_bind_run,hlength,orBadarg_some,lift_ok_bind_run,httl,orBadarg_some,
    lift_ok_bind_run,if_neg (Nat.succ_ne_zero _)]

theorem remove_run (hc : TakesBinNames c) {k : AsKey} (hk : binaryKey ns set key = .ok k)
    (n : BinName) (names : List BinName) {t : ℤ} (httl : getLong ttl = some t)
    (hw : w.isConnectedFlag = true) : removeCall c env ns set key (n::names) ttl w =
      (.ok (answerString (env.respond (w.submitted ++ [removeRequest k n names t])) "key_put"),
        afterSubmit (removeRequest k n names t) w) := by
  have hloop : removeBins c (names.length+1) (nameTerms (n::names))
      ⟨names.length+1,UInt32.ofInt t,[]⟩ = .ok ⟨names.length+1,UInt32.ofInt t,[(n.data,.nil)]⟩ := by
    have hfirst := @removeBins_first c names.length n.data (nameTerms names) _ (UInt32.ofInt t)
      (n.taken hc) names.length.succ_pos
    rwa [n.cStr_eq] at hfirst
  rw [remove_checked hk n names httl,isConnected_bind_run _ hw,hloop,lift_ok_bind_run,
    submit_bind_run]
  rfl

/-- A call that is answered with ok has submitted the first name, whatever stands behind it. -/
theorem remove_submits (hc : TakesBinNames c) {n : BinName} {names : List BinName}
    (h : Successful (removeCall c env ns set key (n::names) ttl w).1) :
    ∃ k t, binaryKey ns set key = .ok k ∧
      submissions (removeCall c env ns set key (n::names) ttl) w =
        some [removeRequest k n names t] := by
  rcases binaryKey_cases ns set key with ⟨k,hk⟩ | hk
  · cases httl : getLong ttl with
    | none =>
      unfold removeCall binaryRemoveSync nameTerms at h
      rw [hk,lift_ok_bind_run,getListLength_ofList,orBadarg_some,lift_ok_bind_run,httl] at h
      exact absurd h not_successful_badarg
    | some t =>
      by_cases hw : w.isConnectedFlag = true
      · refine ⟨k,t,hk,?_⟩
        unfold submissions
        rw [remove_run hc hk n names httl hw]
        simp [afterSubmit]
      · rw [remove_checked hk n names httl,isConnected_bind_refused _ hw] at h
        exact absurd h not_successful_notConnected
  · unfold removeCall binaryRemoveSync at h
    rw [hk] at h
    exact absurd h not_successful_badarg

theorem remove_nothing (h : Successful (removeCall c env ns set key [] ttl w).1) :
    submissions (removeCall c env ns set key [] ttl) w = some [] := by
  unfold submissions
  unfold removeCall binaryRemoveSync nameTerms at h ⊢
  rcases binaryKey_cases ns set key with ⟨k,hk⟩ | hk
  · cases httl : getLong ttl with
    | none =>
      rw [hk,httl] at h
      exact absurd h not_successful_badarg
    | some t =>
      rw [hk]
      simp only [lift_ok_bind_run,List.map_nil,getListLength_ofList,orBadarg_some]
      show some (w.submitted.drop w.submitted.length) = _
      rw [List.drop_length]
  · rw [hk] at h
    exact absurd h not_successful_badarg

end Runs

section Requests

theorem removed_bin {S : Server} (hS : S.Documented) {k : AsKey} {capacity : ℕ} {ttl : UInt32}
    {name m : Bytes} {db db' : S.DB} (h : S.put k ⟨capacity,ttl,[(name,.nil)]⟩ db = some db') :
    S.bin db' k m = if name = m then none else S.bin db k m := by
  rw [hS.put_bins k _ db db' m h]
  unfold Server.putBin
  by_cases hm : name = m
  · simp [hm]
  · simp [hm]

/-- The request names one bin, and so all listed names have to be this one. -/
theorem removesAll_iff {n : BinName} {names : List BinName} (capacity : ℕ) (ttl : UInt32) :
    RemovesAll (n::names) ⟨capacity,ttl,[(n.data,.nil)]⟩ ↔ ∀ m ∈ names, m.data = n.data := by
  constructor
  · intro h m hm
    have hmem := h.listed m (List.mem_cons_of_mem n hm)
    exact congrArg Prod.fst (List.mem_singleton.mp hmem)
  · intro h
    have hall : ∀ m ∈ n::names, m.data = n.data := List.forall_mem_cons.mpr ⟨rfl,h⟩
    constructor
    · intro m hm
      rw [hall m hm]
      exact List.mem_singleton_self _
    · intro b hb
      exact ⟨n,List.mem_cons_self,List.mem_singleton.mp hb⟩
    · exact List.nodup_singleton _
    · intro hnodup
      cases names with
      | nil => rfl
      | cons m names =>
        have hsame := hall m (List.mem_cons_of_mem n List.mem_cons_self)
        simp [hsame] at hnodup
    · intro S hS k db db' hput m hm
      rw [removed_bin hS hput,if_pos (hall m hm).symm]
    · intro S hS k db db' hput m hm
      rw [removed_bin hS hput,if_neg (hm n List.mem_cons_self)]

end Requests

section Settled
variable {c : Client} {env : Env} {w : World} {ns set key ttl : Term}

theorem removes_first_iff (hc : TakesBinNames c) {n : BinName} {names : List BinName}
    (h : Successful (removeCall c env ns set key (n::names) ttl w).1) :
    Removes c env ns set key (n::names) ttl w ↔ ∀ m ∈ names, m.data = n.data := by
  obtain ⟨k,t,hk,hsub⟩ := remove_submits hc h
  rw [← removesAll_iff (names.length+1) (UInt32.ofInt t)]
  constructor
  · rintro (⟨hnil,-⟩ | ⟨k',rec,-,hall,hrec⟩)
    · cases hnil
    · rw [hsub] at hrec
      cases hrec
      exact hall
  · exact fun hall => .inr ⟨k,_,hk,hall,hsub⟩

theorem binary_remove_iff (hc : TakesBinNames c) {names : List BinName}
    (h : Successful (removeCall c env ns set key names ttl w).1) :
    Removes c env ns set key names ttl w ↔ ∀ n ∈ names, ∀ m ∈ names, n.data = m.data := by
  cases names with
  | nil =>
    refine iff_of_true (.inl ⟨rfl,remove_nothing h⟩) ?_
    exact fun n hn => absurd hn List.not_mem_nil
  | cons n names =>
    rw [removes_first_iff hc h]
    constructor
    · intro hall
      have hsame : ∀ m ∈ n::names, m.data = n.data := List.forall_mem_cons.mpr ⟨rfl,hall⟩
      exact fun m hm l hl => (hsame m hm).trans (hsame l hl).symm
    · exact fun hall m hm => hall m (List.mem_cons_of_mem n hm) n List.mem_cons_self

end Settled

section Example

def binB : BinName := ⟨[98],by decide,by decide⟩
def binD : BinName := ⟨[100],by decide,by decide⟩

theorem plain_takes : TakesBinNames plainClient := fun _ hn => decide_eq_true hn

theorem sample_successful (n : BinName) (names : List BinName) :
    Successful (removeCall plainClient plainEnv (.binary [97]) (.binary [97]) (.binary [97])
      (n::names) (.integer 0) connectedWorld).1 := by
  rw [remove_run plain_takes (binaryKey_binary _ _ _) n names (t := 0) rfl rfl]
  exact ⟨_,rfl⟩

theorem repeated_name_removed : Removes plainClient plainEnv (.binary [97]) (.binary [97])
    (.binary [97]) [binB,binB] (.integer 0) connectedWorld :=
  (binary_remove_iff plain_takes (sample_successful binB [binB])).mpr (by simp)

/-- The second of two bins stays. -/
theorem second_bin_stays : ¬∀ (c : Client) (env : Env) (w : World) (ns set key ttl : Term)
    (names : List BinName), TakesBinNames c →
      Successful (removeCall c env ns set key names ttl w).1 →
        Removes c env ns set key names ttl w := by
  intro h
  have hok := sample_successful binB [binD]
  have hremoves := h plainClient plainEnv connectedWorld _ _ _ _ [binB,binD] plain_takes hok
  have hsame := (removes_first_iff plain_takes hok).mp hremoves binD (List.mem_singleton_self _)
  exact absurd hsame (by decide)

end Example

end AspikePort.BinaryRemovals
