import AspikePort.ConnectionHistory

/-!
# The event loops and the client object over whole runs

The event loops are created once, at load, and closed by every failed
connect. The client object is destroyed by a successful disconnect and comes
back only with `init_client`. Both theorems say exactly which runs never meet
a closed loop or a destroyed object.
-/

set_option autoImplicit false

namespace AspikePort.ClientLifetime
open AspikePort.ErlangTerms AspikePort.ClientValues AspikePort.NifWorld
open AspikePort.CallFrames AspikePort.LabelledRuns AspikePort.Lifecycle
open AspikePort.ConnectionHistory

variable {c : Client}

section EventLoops

theorem connects_flag {x : Step} {w : World} (h : Connects x) :
    (next c x w).isConnectedFlag = true := by
  obtain ⟨env,call⟩ := x
  obtain ⟨user,password,rfl,ha,hrc⟩ := h
  obtain ⟨config,hrun⟩ := @connect_succeeded env user password w ha hrc
  rw [next,Call.body,hrun]
  rfl

/-- Only a failed connect closes the loops, and nothing opens them again. -/
theorem next_loops (x : Step) (w : World) :
    (next c x w).loopsRunning = true ↔ w.loopsRunning = true ∧ ¬FailsToConnect x := by
  have ht := next_transition c w x
  generalize next c x w = w' at ht ⊢
  cases ht with
  | initialized hx =>
    obtain ⟨-,hf⟩ := not_connect (x := x) (fun _ _ he => nomatch hx.symm.trans he)
    rw [(initAerospikeClient_frame c w).2.1,and_iff_left hf]
  | connected hx config =>
    exact (and_iff_left (not_fails_of_connects hx)).symm
  | failed hx config => exact iff_of_false (fun h => nomatch h) (fun h => h.2 hx)
  | disconnected hx hw hrc =>
    obtain ⟨-,hf⟩ := not_connect (x := x) (fun _ _ he => nomatch hx.symm.trans he)
    exact (and_iff_left hf).symm
  | framed hc hf hd hframe => rw [hframe.1.loops,and_iff_left hf]

theorem loops_iff (xs : List Step) :
    (reached c xs).loopsRunning = true ↔ ∀ x ∈ xs, ¬FailsToConnect x := by
  refine run_induction (next c) (s := loaded c)
    (I := fun xs w => w.loopsRunning = true ↔ ∀ x ∈ xs, ¬FailsToConnect x)
    ?_ (fun xs x w ih _ => ?_) xs
  · exact iff_of_true rfl (by simp)
  · rw [next_loops,ih,List.forall_mem_append,List.forall_mem_singleton]

/-- Connected means that the event loops run, in every state of a run, exactly
when no connect of the run succeeds after another one has failed. -/
theorem connected_loops_iff (c : Client) (xs : List Step) :
    (∀ pre, pre <+: xs → (reached c pre).isConnectedFlag = true →
      (reached c pre).loopsRunning = true) ↔
    xs.Pairwise (fun a b => ¬(FailsToConnect a ∧ Connects b)) := by
  induction xs using List.reverseRecOn with
  | nil =>
    refine ⟨fun _ => List.Pairwise.nil,fun _ pre hpre h => ?_⟩
    rw [List.prefix_nil.mp hpre] at h
    cases h
  | append_singleton xs x ih =>
    rw [List.pairwise_append,← ih]
    simp only [List.mem_singleton,forall_eq,List.pairwise_singleton,true_and]
    constructor
    · intro h
      refine ⟨fun pre hpre => h pre (hpre.trans (List.prefix_append _ _)),?_⟩
      rintro a ha ⟨hfails,hconnects⟩
      have hflag : (reached c (xs ++ [x])).isConnectedFlag = true := by
        rw [reached,run_snoc]
        exact connects_flag hconnects
      have hloops := loops_iff _ |>.mp (h _ List.prefix_rfl hflag)
      exact hloops a (List.mem_append_left _ ha) hfails
    · rintro ⟨h,hpair⟩ pre hpre hflag
      rcases List.prefix_concat_iff.mp hpre with rfl | hpre
      · rw [reached,run_snoc] at hflag ⊢
        rw [next_loops]
        rcases next_flag hflag with hx | ⟨hw,hf,_⟩
        · refine ⟨(loops_iff xs).mpr (fun a ha hfails => hpair a ha ⟨hfails,hx⟩),?_⟩
          exact not_fails_of_connects hx
        · exact ⟨h xs List.prefix_rfl hw,hf⟩
      · exact h pre hpre hflag

/-- A connect that fails and is tried again with success. -/
def retried : List Step :=
  [({ plainEnv with connect := (-10,"timeout") },.connect .nil .nil),(plainEnv,.connect .nil .nil)]

theorem retried_without_loops : ¬∀ (c : Client) (xs : List Step),
    (reached c xs).isConnectedFlag = true → (reached c xs).loopsRunning = true := by
  intro h
  have := h plainClient retried rfl
  cases this

end EventLoops

section Destruction

theorem next_live {x : Step} {w : World} (h : w.clientLive = w.isInitialized) :
    (next c x w).clientLive = (next c x w).isInitialized := by
  have ht := next_transition c w x
  generalize next c x w = w' at ht ⊢
  cases ht with
  | initialized hx =>
    unfold initAerospikeClient
    split_ifs
    · exact h
    · rfl
  | connected hx config => exact h
  | failed hx config => exact h
  | disconnected hx hw hrc => rfl
  | framed hc hf hd hframe => rw [hframe.1.live,hframe.1.initialized,h]

theorem next_initialized {x : Step} {w : World} (h : w.isInitialized = true)
    (hd : ¬Disconnects (w,x)) : (next c x w).isInitialized = true := by
  have ht := next_transition c w x
  generalize next c x w = w' at ht ⊢
  cases ht with
  | initialized hx => exact (initAerospikeClient_frame c w).2.2.2
  | connected hx config => exact h
  | failed hx config => exact h
  | disconnected hx hw hrc => exact absurd ⟨hx,fun _ => hrc⟩ hd
  | framed hc hf hd hframe => rw [hframe.1.initialized,h]

/-- How often a step reaches for `as`: without a connection, only the calls of
`Touches` do. -/
theorem next_accesses (x : Step) (w : World) :
    ∃ n, (next c x w).accesses = w.accesses ++ List.replicate n w.clientLive ∧
      (w.isConnectedFlag = false → (n = 0 ↔ ¬Touches w x)) := by
  have ht := next_transition c w x
  generalize next c x w = w' at ht ⊢
  cases ht with
  | initialized hx =>
    refine ⟨0,?_,fun _ => iff_of_true rfl (by simp [Touches,hx])⟩
    rw [(initAerospikeClient_frame c w).2.2.1,List.replicate_zero,List.append_nil]
  | connected hx config =>
    obtain ⟨user,password,he,ha,-⟩ := hx
    exact ⟨2,rfl,fun _ => iff_of_false (by decide) (by simpa [Touches,he] using ha)⟩
  | failed hx config =>
    obtain ⟨user,password,he,ha,-⟩ := hx
    exact ⟨2,rfl,fun _ => iff_of_false (by decide) (by simpa [Touches,he] using ha)⟩
  | disconnected hx hw hrc => exact ⟨2,rfl,fun hflag => absurd hw (by simp [hflag])⟩
  | framed hc hf hd hframe =>
    obtain ⟨n,hn⟩ := hframe.1.accesses
    refine ⟨n,hn,fun hflag => ?_⟩
    rw [← hframe.2 hflag,hn]
    simp

/-- No call of a visit reaches for the client object while it is destroyed. -/
def Undisturbed (vs : List (World × Step)) : Prop :=
  ∀ v ∈ vs, v.1.isInitialized = false → ¬Touches v.1 v.2

theorem forall_mem_replicate_append {bs : List Bool} {n : ℕ} {b : Bool} :
    (∀ x ∈ bs ++ List.replicate n b, x = true) ↔
      (∀ x ∈ bs, x = true) ∧ (n = 0 ∨ b = true) := by
  rw [List.forall_mem_append]
  apply and_congr_right
  intro _
  cases n with
  | zero => simp
  | succ n => simp

structure LifetimeInvariant (vs : List (World × Step)) (w : World) : Prop where
  live : w.clientLive = w.isInitialized
  accesses : (∀ b ∈ w.accesses, b = true) ↔ Undisturbed vs
  flag : Undisturbed vs → w.isConnectedFlag = true → w.isInitialized = true

theorem lifetime_step {vs : List (World × Step)} {w : World} {x : Step}
    (h : LifetimeInvariant vs w) : LifetimeInvariant (vs ++ [(w,x)]) (next c x w) := by
  have hsnoc : Undisturbed (vs ++ [(w,x)]) ↔
      Undisturbed vs ∧ (w.isInitialized = false → ¬Touches w x) := by
    unfold Undisturbed
    rw [List.forall_mem_append,List.forall_mem_singleton]
  obtain ⟨n,hn,htouch⟩ := next_accesses (c := c) x w
  refine ⟨next_live h.live,?_,fun hu hflag => ?_⟩
  · rw [hn,forall_mem_replicate_append,h.accesses,hsnoc,h.live]
    apply and_congr_right
    intro hu
    cases hinit : w.isInitialized with
    | true => simp
    | false =>
      -- an uninitialised library is not connected, as long as nobody connects to a destroyed client
      have hflag : w.isConnectedFlag = false := by
        by_contra hne
        have := h.flag hu (by simpa using hne)
        rw [hinit] at this
        cases this
      simpa using htouch hflag
  · obtain ⟨hu,hx⟩ := hsnoc.mp hu
    rcases next_flag hflag with hc | ⟨hw,-,hd⟩
    · refine next_initialized ?_ (not_disconnects_of_connects hc)
      by_contra hne
      obtain ⟨user,password,hcall,ha,-⟩ := hc
      exact hx (by simpa using hne) (by simpa [Touches,hcall] using ha)
    · exact next_initialized (h.flag hu hw) hd

/-- The client object is never used between its destruction and the next
`init_client` exactly when no step of the run that finds the library
uninitialised is one of the calls of `Touches`. -/
theorem client_live_iff (c : Client) (xs : List Step) :
    (∀ b ∈ (reached c xs).accesses, b = true) ↔
      ∀ v ∈ visits (next c) xs (loaded c), v.1.isInitialized = false → ¬Touches v.1 v.2 := by
  have hinv := run_induction (next c) (s := loaded c)
    (I := fun xs w => LifetimeInvariant (visits (next c) xs (loaded c)) w)
    ⟨rfl,iff_of_true (fun _ h => nomatch h) (fun _ h => nomatch h),fun _ h => nomatch h⟩
    (fun xs x w ih hw => by rw [visits_snoc,← hw]; exact lifetime_step ih) xs
  exact hinv.accesses

/-- Disconnect, then connect again without `init_client`. -/
def reconnected : List Step :=
  [(plainEnv,.connect .nil .nil),(plainEnv,.disconnect),(plainEnv,.connect .nil .nil)]

theorem reconnected_destroyed : ¬∀ (c : Client) (xs : List Step),
    ∀ b ∈ (reached c xs).accesses, b = true := by
  intro h
  have haccesses : (reached plainClient reconnected).accesses =
      [true,true,true,true,false,false] := rfl
  have := h plainClient reconnected false (by rw [haccesses]; decide)
  cases this

end Destruction

end AspikePort.ClientLifetime
