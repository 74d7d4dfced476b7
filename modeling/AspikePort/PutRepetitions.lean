import AspikePort.OperationCounters
import AspikePort.SyncCalls

/-!
# The repetitions of a put

The loop compares a 32-bit counter with a 64-bit bound, and the averages behind
it divide by the bound. With a bound below zero nothing is put; with one from
`2^32` on the counter wraps before it gets there and the loop never ends.
-/

set_option autoImplicit false

namespace AspikePort.PutRepetitions
open AspikePort.ClientValues AspikePort.EarlyReturn AspikePort.ErlangTerms AspikePort.NifWorld
open AspikePort.OperationCounters AspikePort.SyncCalls Proc

section Loop
variable {env : Env} {k : AsKey} {rec : PutRecord} {n : ℤ}

def AllSucceed (env : Env) : Prop := ∀ requests, (env.respond requests).status = aerospikeOk

theorem putLoop_zero (i : UInt32) (w : World) :
    putLoop env k rec n 0 i w = (.error (.fault .outOfFuel),w) := rfl

theorem putLoop_done {i : UInt32} (h : ¬(i.toNat : ℤ) < n) (fuel : ℕ) (w : World) :
    putLoop env k rec n (fuel+1) i w = (.ok none,w) := by
  rw [putLoop,if_neg h]
  rfl

theorem putLoop_next (hputs : AllSucceed env) {i : UInt32} (h : (i.toNat : ℤ) < n) (fuel : ℕ)
    (w : World) : putLoop env k rec n (fuel+1) i w =
      putLoop env k rec n fuel (i+1) (afterSubmit (.keyPut k rec) w) := by
  rw [putLoop,if_pos h,submit_bind_run,if_neg (not_not_intro (hputs _))]

/-- From the counter on, one put for each number up to a bound that 32 bits hold. -/
theorem putLoop_puts (hputs : AllSucceed env) (hn : n < 2^32) {m fuel : ℕ} (hfuel : m < fuel)
    {i : UInt32} (hi : i.toNat + (m : ℤ) = n) (w : World) : ∃ t,
      putLoop env k rec n fuel i w = (.ok none,t) ∧
        t.submitted = w.submitted ++ List.replicate m (.keyPut k rec) := by
  induction m generalizing fuel i w with
  | zero =>
    obtain ⟨f,rfl⟩ := Nat.exists_eq_add_one.mpr hfuel
    refine ⟨w,putLoop_done (by omega) f w,?_⟩
    simp
  | succ m ih =>
    obtain ⟨f,rfl⟩ := Nat.exists_eq_add_one.mpr (Nat.zero_lt_of_lt hfuel)
    have hsucc : (i+1).toNat = i.toNat+1 := (toNat_succ_iff i).mpr (by omega)
    rw [putLoop_next hputs (by omega)]
    obtain ⟨t,hrun,hsubmitted⟩ := ih (by omega : m < f) (by omega : (i+1).toNat + (m : ℤ) = n)
      (afterSubmit (.keyPut k rec) w)
    refine ⟨t,hrun,?_⟩
    rw [hsubmitted,List.replicate_succ]
    simp [afterSubmit]

/-- The counter never reaches a bound that 32 bits do not hold. -/
theorem putLoop_endless (hputs : AllSucceed env) (hn : 2^32 ≤ n) (fuel : ℕ) (i : UInt32)
    (w : World) : (putLoop env k rec n fuel i w).1 = .error (.fault .outOfFuel) := by
  induction fuel generalizing i w with
  | zero => rfl
  | succ fuel ih =>
    have hi := i.toNat_lt
    rw [putLoop_next hputs (by omega)]
    exact ih (i+1) (afterSubmit (.keyPut k rec) w)

end Loop

section Calls
variable (c : Client) (env : Env)

structure PutArgs where
  bin : Term
  val : Term
  nameSpace : Term
  set : Term
  key : Term

/-- What the call reads from its arguments. -/
structure PutArgs.Read (a : PutArgs) (bin : Bytes) (val : ℤ) (k : AsKey) : Prop where
  bin : ∃ text, getString asUserSize a.bin = some text ∧
    intoArray asBinNameMaxSize text = .ok bin
  val : getLong a.val = some val
  key : stringKey a.nameSpace a.set a.key = .ok k

/-- With enough time the call puts the record as often as asked and answers. -/
def PutsAndAnswers (a : PutArgs) (n : ℤ) (req : Request) (w : World) : Prop :=
  ∃ fuel reply t,
    aKeyPutSync c { env with fuel := fuel } a.bin a.val a.nameSpace a.set a.key (.integer n) w =
      (.ok reply,t) ∧ t.submitted = w.submitted ++ List.replicate n.toNat req

variable {a : PutArgs} {bin : Bytes} {val : ℤ} {k : AsKey} {n : ℤ} {w : World}

/-- Once everything before the loop has gone well, the bound decides the end. -/
theorem aKeyPutSync_run (hread : a.Read bin val k) (hn : -2^63 ≤ n ∧ n < 2^63)
    (hconnected : w.isConnectedFlag = true) : ∃ finish : Option String → Nif Term,
      aKeyPutSync c env a.bin a.val a.nameSpace a.set a.key (.integer n) w =
        (putLoop env k (setBin c ⟨1,0,[]⟩ bin (.integer val)) n env.fuel 0 >>= finish) w ∧
      (n = 0 → ∀ t, finish none t = (.error (.fault .divisionByZero),t)) ∧
      (n ≠ 0 → ∃ reply, ∀ t, finish none t = (.ok reply,t)) := by
  obtain ⟨text,htext,harray⟩ := hread.bin
  apply Exists.intro
  refine ⟨?_,?_,?_⟩
  · unfold aKeyPutSync
    rw [htext,hread.val,hread.key,getLong_integer hn,orBadarg_some,lift_ok_bind_run,harray,
      lift_ok_bind_run,orBadarg_some,lift_ok_bind_run,lift_ok_bind_run,orBadarg_some,
      lift_ok_bind_run,isConnected_bind_run _ hconnected]
  · intro hzero t
    simp only [hzero,if_true]
    rfl
  · intro hne
    simp only [hne,if_false]
    exact ⟨_,fun t => rfl⟩

/-- Zero repetitions divide by zero, and too many leave the loop without an end. -/
theorem no_answer (hread : a.Read bin val k) (hn : -2^63 ≤ n ∧ n < 2^63)
    (hconnected : w.isConnectedFlag = true) (hputs : AllSucceed env)
    (hbad : n = 0 ∨ 2^32 ≤ n) (req : Request) : ¬PutsAndAnswers c env a n req w := by
  rintro ⟨fuel,reply,t,hrun,-⟩
  have hputs' : AllSucceed { env with fuel := fuel } := hputs
  obtain ⟨finish,hcall,hzero,-⟩ :=
    aKeyPutSync_run c { env with fuel := fuel } hread hn hconnected
  rw [hcall] at hrun
  rcases hbad with hz | hlarge
  · cases fuel with
    | zero =>
      rw [bind_run_error finish (putLoop_zero 0 w)] at hrun
      cases hrun
    | succ fuel =>
      have hdone : ¬((0 : UInt32).toNat : ℤ) < n := by
        rw [hz]
        decide
      rw [bind_run_ok finish (putLoop_done hdone fuel w),hzero hz] at hrun
      cases hrun
  · rw [bind_run_error finish (Prod.ext (putLoop_endless hputs' hlarge fuel 0 w) rfl)] at hrun
    cases hrun

/-- The puts asked for are made and the call answers exactly for a bound other
than zero that 32 bits hold. -/
theorem puts_and_answers_iff (hread : a.Read bin val k) (hn : -2^63 ≤ n ∧ n < 2^63)
    (hconnected : w.isConnectedFlag = true) (hputs : AllSucceed env) :
    PutsAndAnswers c env a n (.keyPut k (setBin c ⟨1,0,[]⟩ bin (.integer val))) w ↔
      n ≠ 0 ∧ n < 2^32 := by
  constructor
  · intro h
    by_contra hbad
    have hcases : n = 0 ∨ 2^32 ≤ n := by omega
    exact no_answer c env hread hn hconnected hputs hcases _ h
  · rintro ⟨hne,hlt⟩
    have hstart : (0 : UInt32).toNat = 0 := rfl
    have hputs' : AllSucceed { env with fuel := n.toNat+1 } := hputs
    obtain ⟨finish,hcall,-,hanswer⟩ :=
      aKeyPutSync_run c { env with fuel := n.toNat+1 } hread hn hconnected
    obtain ⟨reply,hreply⟩ := hanswer hne
    have hloop : ∃ t, putLoop { env with fuel := n.toNat+1 } k
        (setBin c ⟨1,0,[]⟩ bin (.integer val)) n (n.toNat+1) 0 w = (.ok none,t) ∧
        t.submitted = w.submitted ++
          List.replicate n.toNat (.keyPut k (setBin c ⟨1,0,[]⟩ bin (.integer val))) := by
      by_cases hpos : 0 < n
      · exact putLoop_puts hputs' hlt (Nat.lt_succ_self _) (by omega) w
      · refine ⟨w,putLoop_done (by omega) _ w,?_⟩
        rw [Int.toNat_of_nonpos (not_lt.mp hpos)]
        simp
    obtain ⟨t,hrun,hsubmitted⟩ := hloop
    refine ⟨n.toNat+1,reply,t,?_,hsubmitted⟩
    rw [hcall,bind_run_ok finish hrun,hreply]

def someArgs : PutArgs where
  bin := makeString "a"
  val := .integer 1
  nameSpace := makeString "b"
  set := makeString "c"
  key := makeString "d"

theorem someArgs_read : someArgs.Read [97] 1 (asKeyInitStr [98] [99] [100]) where
  bin := ⟨[97],by decide,rfl⟩
  val := rfl
  key := rfl

theorem plainEnv_succeeds : AllSucceed plainEnv := fun _ => rfl

theorem two_puts_answered : PutsAndAnswers plainClient plainEnv someArgs 2
    (.keyPut (asKeyInitStr [98] [99] [100]) (setBin plainClient ⟨1,0,[]⟩ [97] (.integer 1)))
    connectedWorld :=
  (puts_and_answers_iff plainClient plainEnv someArgs_read (by decide) rfl
    plainEnv_succeeds).mpr (by decide)

/-- No put at all divides by zero; `2^32` of them never end. -/
theorem repetitions_unanswered : ¬∀ (c : Client) (env : Env) (a : PutArgs) (bin : Bytes) (val : ℤ)
    (k : AsKey) (n : ℤ) (w : World), a.Read bin val k → (-2^63 ≤ n ∧ n < 2^63) →
    w.isConnectedFlag = true → AllSucceed env →
    PutsAndAnswers c env a n (.keyPut k (setBin c ⟨1,0,[]⟩ bin (.integer val))) w := by
  intro hall
  have hzero := hall plainClient plainEnv someArgs [97] 1 (asKeyInitStr [98] [99] [100]) 0
    connectedWorld someArgs_read (by decide) rfl plainEnv_succeeds
  exact no_answer plainClient plainEnv someArgs_read (by decide) rfl plainEnv_succeeds
    (Or.inl rfl) _ hzero

end Calls

end AspikePort.PutRepetitions
