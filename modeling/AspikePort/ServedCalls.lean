import AspikePort.PortConversations
import AspikePort.PortServer

/-!
# The server process and the port it serves

Commands go to the port as packets, and each frame the port writes comes back
as a message. The port answers one command after the other, whatever callers
and clocks do in between. A `call_port` that returns what has come back returns
the pair that the port has written for its own command.
-/

set_option autoImplicit false

namespace AspikePort.ServedCalls
open AspikePort.ErlangTerms AspikePort.EarlyReturn AspikePort.FramedStreams
open AspikePort.ExternalTerms AspikePort.EiBuffers AspikePort.PortCalls AspikePort.PortHandlers
open AspikePort.ReplyFrames
open AspikePort.FrameReplies AspikePort.PortFrames AspikePort.PortConversations
open AspikePort.LabelledRuns
open AspikePort.PortStores (MainBuffer zeroBuffer)
open AspikePort.PortAgreement (connectedPort)
open AspikePort.PortServer (State Label Message ServerModule Handling Outcome Meets Right Effect
  answers step take_effect returns_value)

section Machine

/-- The server process, the loop at the other end of its pipe with its buffer,
and the calls that the loop has read. -/
structure System where
  server : State
  talk : Talk
  buf : Bytes
  read : List Call

def System.start (port : PortState) (buf : MainBuffer) (writes : ℕ) : System :=
  ⟨State.start,⟨port,0,⟨writes,[]⟩⟩,buf.val,[]⟩

/-- The oldest command that has not been read. -/
def System.oldest (s : System) : Option Term :=
  s.server.portQueue.head?.bind (fun c => s.server.sent[c]?)

/-- What `term_to_binary` may make of a command. -/
def Carries (cmd : Term) (call : Call) : Prop := terms call.heads = some [cmd]

/-- What the server makes of the data of a message. -/
def Understood (data : Bytes) : Option Term → Prop
  | some t => FirstTerm data t
  | none => ∀ t, ¬FirstTerm data t

variable (m : ServerModule) (env : ℕ → PortEnv) (wc : Chunking) (beyond : Bytes)

/-- The loop reads the oldest command and writes one packet, whose data becomes
a message. Every other step is one of the server. -/
inductive Happens : Label → System → System → Prop
  | apart {l : Label} {s : System} (h : ∀ reply, l ≠ .answer reply) :
    Happens l s { s with server := step m l s.server }
  | answer {reply : Option Term} {s : System} {talk : Talk} {cmd : Term} {call : Call}
    {data : Bytes} (hcmd : s.oldest = some cmd) (hwire : Carries cmd call)
    (hround : body env wc beyond s.talk (afterCmd s.buf call.payload) = some talk)
    (hsize : data.length < twoBytes.limit)
    (hout : talk.out.sent = s.talk.out.sent ++ frame twoBytes data)
    (hreply : Understood data reply) : Happens (.answer reply) s
      ⟨step m (.answer reply) s.server,talk,afterCmd s.buf call.payload,s.read ++ [call]⟩

end Machine

section Port
variable (env : ℕ → PortEnv) (beyond : Bytes)

/-- The port and its buffer after some calls. -/
def portAfter : ℕ → PortState → Bytes → List Call → PortState × Bytes
  | _, s, buf, [] => (s,buf)
  | n, s, buf, call::calls =>
    portAfter (n+1) (call.run (env n) buf beyond s).2 (afterCmd buf call.payload) calls

variable {env beyond} {n : ℕ} {s : PortState} {buf : Bytes} {calls : List Call} {call : Call}

theorem portAfter_snoc : portAfter env beyond n s buf (calls ++ [call]) =
    ((call.run (env (n+calls.length)) (portAfter env beyond n s buf calls).2 beyond
      (portAfter env beyond n s buf calls).1).2,
      afterCmd (portAfter env beyond n s buf calls).2 call.payload) := by
  induction calls generalizing n s buf with
  | nil => rfl
  | cons first calls ih =>
    rw [List.cons_append,portAfter,ih,portAfter,List.length_cons,Nat.add_right_comm,Nat.add_assoc]

/-- The frame of a call is that of its handler in the state the others leave. -/
theorem replies_snoc : replies env beyond n s buf (calls ++ [call]) =
    replies env beyond n s buf calls ++
      (call.run (env (n+calls.length)) (portAfter env beyond n s buf calls).2 beyond
        (portAfter env beyond n s buf calls).1).2.written.drop
          (portAfter env beyond n s buf calls).1.written.length := by
  induction calls generalizing n s buf with
  | nil => exact List.append_nil _
  | cons first calls ih =>
    rw [List.cons_append,replies,ih,replies,portAfter,List.length_cons,List.append_assoc,
      Nat.add_right_comm,Nat.add_assoc]

theorem allFine_snoc : AllFine env beyond n s buf (calls ++ [call]) ↔
    AllFine env beyond n s buf calls ∧ CallFine (env (n+calls.length))
      (portAfter env beyond n s buf calls).1 call.arity
        (call.args ++ PortStores.heads (call.behind (portAfter env beyond n s buf calls).2 beyond)) := by
  induction calls generalizing n s buf with
  | nil => exact and_comm
  | cons first calls ih =>
    rw [List.cons_append,AllFine,ih,AllFine,portAfter,List.length_cons,Nat.add_right_comm,
      Nat.add_assoc,and_assoc]

end Port

section Server
variable {m : ServerModule} {s : State} {l : Label}

/-- At most one command is sent, and no answer is made up. -/
structure Sends (s t : State) : Prop where
  answers : ∀ a ∈ PortServer.answers t, a ∈ PortServer.answers s
  sent : (t.sent = s.sent ∧ t.portQueue = s.portQueue) ∨
    ∃ cmd, t.sent = s.sent ++ [cmd] ∧ t.portQueue = s.portQueue ++ [s.sent.length]

theorem take_queue (h : ∀ reply, l ≠ .answer reply) :
    s.portQueue.length ≤ (l.take m s).1.portQueue.length := by
  cases l with
  | answer reply => exact absurd rfl (h reply)
  | serve portInfo =>
    simp only [Label.take]
    split
    · rename_i msg mailbox hidle hmail
      cases msg with
      | call caller msg =>
        simp only [PortServer.handleMessage,PortServer.handleCall]
        split
        · exact le_rfl
        · split <;> exact le_rfl
      | cast msg =>
        simp only [PortServer.handleMessage,PortServer.handleCast]
        split
        · exact (List.prefix_append _ _).length_le
        · exact le_rfl
      | _ => exact le_rfl
    · exact le_rfl
  | receive =>
    simp only [Label.take]
    split <;> exact le_rfl
  | timeout =>
    simp only [Label.take]
    split <;> exact le_rfl
  | _ => exact le_rfl

theorem take_sends (h : ∀ reply, l ≠ .answer reply) : Sends s (l.take m s).1 ∧
    ((l.take m s).2 ≠ none → (l.take m s).1.sent = s.sent ∧
      (l.take m s).1.portQueue = s.portQueue) := by
  have he := take_effect (m := m) (s := s) l
  have hqueue := take_queue (m := m) (s := s) h
  generalize (l.take m s).1 = t at he hqueue ⊢
  generalize (l.take m s).2 = o at he ⊢
  cases he with
  | quiet hs => exact ⟨⟨fun a ha => hs.1 ▸ ha,.inl ⟨hs.2.2.1,hs.2.1⟩⟩,fun _ => ⟨hs.2.2.1,hs.2.1⟩⟩
  | answered c reply hs =>
    rw [hs.2.1,List.length_cons] at hqueue
    omega
  | dropped d hs =>
    refine ⟨⟨fun a ha => ?_,.inl ⟨hs.2.2.1,hs.2.1⟩⟩,fun hne => absurd rfl hne⟩
    rw [hs.1]
    exact List.mem_cons_of_mem _ ha
  | posted cmd hs =>
    exact ⟨⟨fun a ha => hs.1 ▸ ha,.inr ⟨cmd,hs.2.2.1,hs.2.1⟩⟩,fun hne => absurd rfl hne⟩
  | received d r hs h =>
    refine ⟨⟨fun a ha => ?_,.inl ⟨hs.2.2,hs.2.1⟩⟩,fun _ => ⟨hs.2.2,hs.2.1⟩⟩
    rw [hs.1]
    exact List.mem_cons_of_mem _ ha
  | ended hs => exact ⟨⟨fun a ha => hs.1 ▸ ha,.inl ⟨hs.2.2.1,hs.2.1⟩⟩,fun hne => absurd rfl hne⟩

theorem step_sends (h : ∀ reply, l ≠ .answer reply) : Sends s (step m l s) := by
  have htake := take_sends (m := m) (s := s) h
  unfold step
  cases hl : l.take m s with
  | mk t o =>
    rw [hl] at htake
    obtain ⟨hsends,hquiet⟩ := htake
    cases o with
    | none => exact hsends
    | some k =>
      obtain ⟨hsent,hqueue⟩ := hquiet (Option.some_ne_none k)
      have hanswers : ∀ a ∈ answers t, a ∈ answers s := hsends.answers
      show Sends s (t.resume m k)
      unfold State.resume
      split
      · exact ⟨hanswers,.inl ⟨hsent,hqueue⟩⟩
      · exact ⟨hanswers,.inl ⟨hsent,hqueue⟩⟩
      · rename_i cmd rest hrest
        refine ⟨hanswers,.inr ⟨cmd,?_,?_⟩⟩
        · exact congrArg (· ++ [cmd]) hsent
        · show t.portQueue ++ [t.sent.length] = _
          rw [hsent,hqueue]

/-- A `call_port` has sent the next command of the request's plan. -/
def InPlan (m : ServerModule) (s : State) : Prop :=
  ∀ c k, s.activity = .waiting c k → ∃ cmd, s.sent[c]? = some cmd ∧
    (m.plan k.msg).drop k.results.length = some cmd::k.rest

theorem take_planned (h : InPlan m s) {k : Handling} (htake : (l.take m s).2 = some k) :
    k.rest = (m.plan k.msg).drop k.results.length := by
  have hnext : ∀ c k', s.activity = .waiting c k' → ∀ t : Term,
      k'.rest = (m.plan k'.msg).drop (k'.results ++ [t]).length := by
    intro c k' hact t
    obtain ⟨cmd,-,hplan⟩ := h c k' hact
    rw [List.length_append,List.length_singleton,← List.drop_drop,hplan,List.drop_one,
      List.tail_cons]
  cases l with
  | serve portInfo =>
    simp only [Label.take] at htake
    split at htake
    · rename_i msg mailbox hidle hmail
      cases msg with
      | call caller msg =>
        simp only [PortServer.handleMessage,PortServer.handleCall] at htake
        split at htake
        · cases htake
          rfl
        · split at htake <;> cases htake
      | _ => cases htake
    · cases htake
  | receive =>
    simp only [Label.take] at htake
    split at htake
    · rename_i c k' d t hact hfind
      cases htake
      exact hnext c k' hact t
    · cases htake
    · cases htake
  | timeout =>
    simp only [Label.take] at htake
    split at htake
    · rename_i c k' hact hfind
      cases htake
      exact hnext c k' hact _
    · cases htake
  | answer reply =>
    simp only [Label.take] at htake
    split at htake <;> cases htake
  | _ => cases htake

theorem step_planned (l : Label) (h : InPlan m s) : InPlan m (step m l s) := by
  have he := take_effect (m := m) (s := s) l
  have hplanned := fun k => take_planned (l := l) (k := k) h
  unfold step
  cases hl : l.take m s with
  | mk t o =>
    rw [hl] at he hplanned
    cases o with
    | none =>
      intro c k hact
      change t.activity = .waiting c k at hact
      show ∃ cmd, t.sent[c]? = some cmd ∧ _
      cases he with
      | quiet hs =>
        rw [hs.2.2.1]
        exact h c k (hs.2.2.2.symm.trans hact)
      | answered d reply hs =>
        rw [hs.2.2.1]
        exact h c k (hs.2.2.2.symm.trans hact)
      | dropped d hs =>
        rw [hs.2.2.2] at hact
        cases hact
      | posted cmd hs =>
        rw [hs.2.2.2] at hact
        cases hact
      | ended hs =>
        rw [hs.2.2.2] at hact
        cases hact
    | some k =>
      have hrest := hplanned k rfl
      show InPlan m (t.resume m k)
      unfold State.resume
      split
      · exact fun c k' hact => by cases hact
      · exact fun c k' hact => by cases hact
      · rename_i cmd rest hk
        intro c k' hact
        cases hact
        exact ⟨cmd,List.getElem?_concat_length,hrest.symm.trans hk⟩

end Server

section Runs
variable {m : ServerModule} {env : ℕ → PortEnv} {wc : Chunking} {beyond : Bytes}
  {port : PortState} {buf : MainBuffer} {writes : ℕ} {s t : System}

/-- What is kept while every call that the port reads is fine. -/
structure Kept (m : ServerModule) (env : ℕ → PortEnv) (beyond : Bytes) (port : PortState)
    (buf : Bytes) (s : System) : Prop where
  queue : s.server.portQueue =
    List.range' s.read.length (s.server.sent.length-s.read.length)
  within : s.read.length ≤ s.server.sent.length
  carries : List.Forall₂ Carries (s.server.sent.take s.read.length) s.read
  rounds : s.talk.rounds = s.read.length
  state : s.talk.port = (portAfter env beyond 0 port buf s.read).1
  buffer : s.buf = (portAfter env beyond 0 port buf s.read).2
  answers : ∀ d r, (d,r) ∈ answers s.server → ∃ toks,
    (replies env beyond 0 port buf s.read)[d]? = some toks ∧ Understood (replyOf toks).val r
  planned : InPlan m s.server

theorem start_kept : Kept m env beyond port buf.val (System.start port buf writes) where
  queue := rfl
  within := le_rfl
  carries := .nil
  rounds := rfl
  state := rfl
  buffer := rfl
  answers := fun d r h => absurd h List.not_mem_nil
  planned := fun c k h => by cases h

theorem range'_snoc {k n : ℕ} (h : k ≤ n) :
    List.range' k (n+1-k) = List.range' k (n-k) ++ [n] := by
  rw [Nat.sub_add_comm h,List.range'_concat,Nat.one_mul,Nat.add_sub_cancel' h]

theorem frame_inj {p q : Bytes} (h : frame twoBytes p = frame twoBytes q) : p = q :=
  List.append_inj_right h (by rw [twoBytes.length_header,twoBytes.length_header])

theorem apart_kept {l : Label} (hl : ∀ reply, l ≠ .answer reply)
    (h : Kept m env beyond port buf.val s) :
    Kept m env beyond port buf.val { s with server := step m l s.server } := by
  have hsends := step_sends (m := m) (s := s.server) hl
  have hplanned := step_planned (m := m) l h.planned
  have hanswers : ∀ d r, (d,r) ∈ answers (step m l s.server) → ∃ toks,
      (replies env beyond 0 port buf.val s.read)[d]? = some toks ∧
        Understood (replyOf toks).val r := fun d r hmem => h.answers d r (hsends.answers _ hmem)
  rcases hsends.sent with ⟨hsent,hqueue⟩ | ⟨cmd,hsent,hqueue⟩
  · exact ⟨by rw [hsent,hqueue]; exact h.queue,by rw [hsent]; exact h.within,
      by rw [hsent]; exact h.carries,h.rounds,h.state,h.buffer,hanswers,hplanned⟩
  · refine ⟨?_,?_,?_,h.rounds,h.state,h.buffer,hanswers,hplanned⟩
    · show (step m l s.server).portQueue =
        List.range' s.read.length ((step m l s.server).sent.length-s.read.length)
      rw [hsent,hqueue,h.queue,List.length_append,List.length_singleton,range'_snoc h.within]
    · show s.read.length ≤ (step m l s.server).sent.length
      rw [hsent,List.length_append]
      exact Nat.le_add_right_of_le h.within
    · show List.Forall₂ Carries ((step m l s.server).sent.take s.read.length) s.read
      rw [hsent,List.take_append_of_le_length h.within]
      exact h.carries

/-- The round that reads a fine call writes one packet, the frame of its handler. -/
theorem round_writes (wc : Chunking) {call : Call} (h : Kept m env beyond port buf.val s)
    (hfine : AllFine env beyond 0 port buf.val (s.read ++ [call])) : ∃ toks talk,
      body env wc beyond s.talk (afterCmd s.buf call.payload) = some talk ∧
      replies env beyond 0 port buf.val (s.read ++ [call]) =
        replies env beyond 0 port buf.val s.read ++ [toks] ∧
      Framed toks ∧ talk.out.sent = s.talk.out.sent ++ frame twoBytes (replyOf toks).val ∧
      talk.rounds = s.read.length+1 ∧
      talk.port = (portAfter env beyond 0 port buf.val (s.read ++ [call])).1 := by
  obtain ⟨-,hcall⟩ := allFine_snoc.mp hfine
  rw [Nat.zero_add] at hcall
  obtain ⟨-,toks,hwritten,-,hframed⟩ := (call.run_answers _ _ _ _).mpr hcall
  have hbody := @body_run env wc beyond s.read.length _ _ call s.talk.out hcall
  have htalk : s.talk = ⟨(portAfter env beyond 0 port buf.val s.read).1,s.read.length,
      s.talk.out⟩ := by
    rw [← h.state,← h.rounds]
  have hne : ∀ p ∈ [(replyOf toks).val], p ≠ [] :=
    fun p hp => List.mem_singleton.mp hp ▸ (replyOf toks).property
  have hsent := writeCmds_sent wc hne s.talk.out
  rw [stream,List.flatMap_singleton] at hsent
  rw [← htalk,hwritten,List.drop_left,← h.buffer] at hbody
  refine ⟨toks,_,hbody,?_,hframed,hsent,rfl,?_⟩
  · rw [replies_snoc,Nat.zero_add,hwritten,List.drop_left]
  · rw [portAfter_snoc,Nat.zero_add,h.buffer]

theorem answer_kept {reply : Option Term} {talk : Talk} {cmd : Term} {call : Call} {data : Bytes}
    (h : Kept m env beyond port buf.val s)
    (hfine : AllFine env beyond 0 port buf.val (s.read ++ [call])) (hcmd : s.oldest = some cmd)
    (hwire : Carries cmd call)
    (hround : body env wc beyond s.talk (afterCmd s.buf call.payload) = some talk)
    (hout : talk.out.sent = s.talk.out.sent ++ frame twoBytes data)
    (hreply : Understood data reply) : Kept m env beyond port buf.val
      ⟨step m (.answer reply) s.server,talk,afterCmd s.buf call.payload,s.read ++ [call]⟩ := by
  obtain ⟨toks,talk',hbody,hreplies,-,hsent',hrounds,hstate⟩ := round_writes wc h hfine
  obtain rfl : talk' = talk := Option.some.inj (hbody.symm.trans hround)
  obtain rfl : data = (replyOf toks).val := frame_inj (List.append_cancel_left (hout.symm.trans hsent'))
  have hlength := (replies_good (allFine_snoc.mp hfine).1).1
  obtain ⟨c,hc,hsent⟩ := Option.bind_eq_some_iff.mp hcmd
  obtain ⟨queue,hqueue⟩ : ∃ queue, s.server.portQueue = c::queue := by
    cases hq : s.server.portQueue with
    | nil =>
      rw [hq] at hc
      cases hc
    | cons d queue =>
      rw [hq] at hc
      cases hc
      exact ⟨queue,rfl⟩
  have hstep : step m (.answer reply) s.server = { s.server with
      portQueue := queue, mailbox := s.server.mailbox ++ [.data c reply] } := by
    unfold step
    simp only [Label.take]
    rw [hqueue]
  have hnext : c = s.read.length ∧
      queue = List.range' (s.read.length+1) (s.server.sent.length-(s.read.length+1)) := by
    have hrange := hqueue.symm.trans h.queue
    cases hn : s.server.sent.length-s.read.length with
    | zero =>
      rw [hn] at hrange
      cases hrange
    | succ n =>
      rw [hn,List.range'_succ] at hrange
      obtain ⟨hfirst,hrest⟩ := List.cons.inj hrange
      exact ⟨hfirst,by rw [hrest]; congr 1; omega⟩
  obtain ⟨rfl,hrest⟩ := hnext
  have hmore : s.read.length < s.server.sent.length := (List.getElem?_eq_some_iff.mp hsent).1
  have hplanned := step_planned (m := m) (.answer reply) h.planned
  rw [hstep] at hplanned ⊢
  refine ⟨?_,?_,?_,?_,hstate,?_,?_,hplanned⟩
  · rw [List.length_append,List.length_singleton]
    exact hrest
  · rw [List.length_append,List.length_singleton]
    exact hmore
  · show List.Forall₂ Carries (s.server.sent.take (s.read ++ [call]).length) _
    rw [List.length_append,List.length_singleton,List.take_add_one,hsent]
    exact List.rel_append h.carries (.cons hwire .nil)
  · rw [List.length_append,List.length_singleton]
    exact hrounds
  · rw [portAfter_snoc,h.buffer]
  · intro d r hmem
    have hanswers : answers { s.server with
        portQueue := queue, mailbox := s.server.mailbox ++ [.data s.read.length reply] } =
          answers s.server ++ [(s.read.length,reply)] :=
      PortServer.answers_post s.server (.data s.read.length reply)
    rw [hanswers] at hmem
    rw [hreplies]
    rcases List.mem_append.mp hmem with hold | hnew
    · obtain ⟨old,hold,hunderstood⟩ := h.answers d r hold
      exact ⟨old,List.getElem?_append_left (List.getElem?_eq_some_iff.mp hold).1 ▸ hold,hunderstood⟩
    · cases List.mem_singleton.mp hnew
      exact ⟨toks,by rw [← hlength,List.getElem?_concat_length],hreply⟩

/-- The port can read its oldest command if that is a fine call. -/
theorem answer_happens (wc : Chunking) {cmd : Term} {call : Call} (h : Kept m env beyond port buf.val s)
    (hfine : AllFine env beyond 0 port buf.val (s.read ++ [call])) (hcmd : s.oldest = some cmd)
    (hwire : Carries cmd call) : ∃ toks talk,
      replies env beyond 0 port buf.val (s.read ++ [call]) =
        replies env beyond 0 port buf.val s.read ++ [toks] ∧
      ∀ reply, Understood (replyOf toks).val reply → Happens m env wc beyond (.answer reply) s
        ⟨step m (.answer reply) s.server,talk,afterCmd s.buf call.payload,s.read ++ [call]⟩ := by
  obtain ⟨toks,talk,hbody,hreplies,hframed,hsent,-⟩ := round_writes wc h hfine
  refine ⟨toks,talk,hreplies,fun reply hreply => .answer hcmd hwire hbody ?_ hsent hreply⟩
  unfold Framed width at hframed
  change (131::toks.flatMap Tok.bytes).length < 65536
  rw [List.length_cons]
  omega

theorem run_kept {ls : List Label}
    (h : Trace (Happens m env wc beyond) ls (System.start port buf writes) s)
    (hfine : AllFine env beyond 0 port buf.val s.read) : Kept m env beyond port buf.val s := by
  refine trace_induction (Happens m env wc beyond)
    (I := fun _ s => AllFine env beyond 0 port buf.val s.read → Kept m env beyond port buf.val s)
    (fun _ => start_kept) (fun ls l s t ih hstep hfine => ?_) h hfine
  cases hstep with
  | apart hl => exact apart_kept hl (ih hfine)
  | answer hcmd hwire hround hsize hout hreply =>
    exact answer_kept (ih (allFine_snoc.mp hfine).1) hfine hcmd hwire hround hout hreply

theorem server_run {ls : List Label} (h : Trace (Happens m env wc beyond) ls s t) :
    t.server = run (step m) ls s.server := by
  induction ls generalizing s with
  | nil => rw [show t = s from h,run]
  | cons l ls ih =>
    obtain ⟨u,hu,hrest⟩ := h
    have hserver : u.server = step m l s.server := by cases hu <;> rfl
    rw [ih hrest,hserver,run]

theorem holdsPair_first {toks : List Tok} (h : HoldsPair toks) :
    ∃ a b, FirstTerm (replyOf toks).val (.tuple [a,b]) := by
  obtain ⟨pre,post,a,b,rfl,hvalid,hterms⟩ := h
  exact ⟨a,b,pre,post.flatMap Tok.bytes,hvalid,congrArg (131::·) List.flatMap_append,hterms⟩

theorem returned_answer {l : Label} {s : State} {c d : ℕ} {t : Term}
    (h : l.returns s = some (c,.replyTo d t)) : (d,some t) ∈ answers s := by
  unfold Label.returns at h
  split at h
  · rename_i c' k d' t' hact hfind
    cases h
    rw [PortServer.findSome_answers] at hfind
    exact List.mem_of_mem_head? hfind
  · cases h
  · cases h

/-- The port reads the commands in the order they were sent, and a `call_port`
that returns has timed out or returns the pair that the handler of its own
command has posted. -/
theorem calls_served {ls : List Label} {l : Label} {c : ℕ} {o : Outcome}
    (hrun : Trace (Happens m env wc beyond) ls (System.start port buf writes) s)
    (hfine : AllFine env beyond 0 port buf.val s.read)
    (hmeets : ∀ v ∈ visits (step m) ls State.start, Meets m v.2 v.1)
    (hret : l.returns s.server = some (c,o)) :
    List.Forall₂ Carries (s.server.sent.take s.read.length) s.read ∧
    ∃ k cmd, s.server.activity = .waiting c k ∧
      (m.plan k.msg)[k.results.length]? = some (some cmd) ∧ s.server.sent[c]? = some cmd ∧
      (o = .timedOut ∨ ∃ call toks a b, s.read[c]? = some call ∧ Carries cmd call ∧
        (replies env beyond 0 port buf.val s.read)[c]? = some toks ∧
        FirstTerm (replyOf toks).val (.tuple [a,b]) ∧ o = .replyTo c (.tuple [a,b])) := by
  have hkept := run_kept hrun hfine
  have hsound := PortServer.meets_sound m ls PortServer.start_sound hmeets
  have hserver : s.server = run (step m) ls State.start := server_run hrun
  rw [← hserver] at hsound
  refine ⟨hkept.carries,?_⟩
  obtain ⟨k,hact,-⟩ := returns_value m hret
  obtain ⟨cmd,hsent,hplan⟩ := hkept.planned c k hact
  have hnext : (m.plan k.msg)[k.results.length]? = some (some cmd) := by
    rw [← List.head?_drop,hplan]
    rfl
  refine ⟨k,cmd,hact,hnext,hsent,?_⟩
  cases o with
  | timedOut => exact .inl rfl
  | replyTo d t =>
    right
    have hright : d = c := PortServer.sound_right hsound l c d t hret
    subst hright
    obtain ⟨toks,htoks,hterm⟩ := hkept.answers d (some t) (returned_answer hret)
    obtain ⟨a,b,hpair⟩ := holdsPair_first
      ((replies_good hfine).2 toks (List.mem_of_getElem? htoks)).1
    have hlt : d < s.read.length := by
      rw [← (replies_good hfine).1]
      exact (List.getElem?_eq_some_iff.mp htoks).1
    refine ⟨s.read[d],toks,a,b,List.getElem?_eq_getElem hlt,?_,htoks,hpair,?_⟩
    · have htaken : (s.server.sent.take s.read.length)[d]? = some cmd := by
        rw [List.getElem?_take_of_lt hlt,hsent]
      obtain ⟨hd,hcmd⟩ := List.getElem?_eq_some_iff.mp htaken
      have hcarries := hkept.carries.get hd hlt
      rwa [List.get_eq_getElem,hcmd] at hcarries
    · rw [firstTerm_unique hterm hpair]

end Runs

section Example

def initMessage : Term := .tuple [.atom "command",PortServer.initCommand]

def initReply : List Tok := eiXEncodeTupleHeader 2 ++ (eiXEncodeAtom "ok" ++
  eiXEncodeString (textBytes "initialised"))

def initialised : Term := makeTuple2 atomOk (makeString "initialised")

theorem init_fine : AllFine (fun _ => plainPort) [] 0 connectedPort zeroBuffer.val [initCall] :=
  ⟨(plainCalls_fine [] connectedPort).1,trivial⟩

theorem init_posts : replies (fun _ => plainPort) [] 0 connectedPort zeroBuffer.val [initCall] =
    [initReply] := by
  unfold replies
  rw [initCall.functionCall_run]
  rfl

theorem init_understood : Understood (replyOf initReply).val (some initialised) := by
  have hhead : AllValid [.tuple 2] := allValid_one (show 2 < 2^32 by decide)
  have hok : AllValid [.atom "ok"] := allValid_one (show (textBytes "ok").length < 2^16 by decide)
  have htext : AllValid [.string (textBytes "initialised")] :=
    allValid_one (show (textBytes "initialised").length < 2^16 by decide)
  exact ⟨initReply,[],hhead.append (hok.append htext),congrArg (131::·) (List.append_nil _).symm,rfl⟩

def initLabels : List Label := [.call 0 initMessage,.serve .nil,.answer (some initialised)]

theorem init_served : ∃ s : System,
    Trace (Happens .srv (fun _ => plainPort) .single []) initLabels
      (System.start connectedPort zeroBuffer 0) s ∧
    Label.receive.returns s.server = some (0,.replyTo 0 initialised) ∧
    ∃ toks a b, (replies (fun _ => plainPort) [] 0 connectedPort zeroBuffer.val s.read)[0]? =
      some toks ∧ FirstTerm (replyOf toks).val (.tuple [a,b]) := by
  have hsent : Trace (Happens .srv (fun _ => plainPort) .single [])
      [.call 0 initMessage,.serve .nil] (System.start connectedPort zeroBuffer 0)
      { System.start connectedPort zeroBuffer 0 with
        server := run (step .srv) [.call 0 initMessage,.serve .nil] State.start } :=
    ⟨_,.apart (by simp),_,.apart (by simp),rfl⟩
  have hkept := run_kept hsent trivial
  have hwire : Carries PortServer.initCommand initCall := rfl
  obtain ⟨toks,talk,htoks,hhappens⟩ := answer_happens .single hkept init_fine rfl hwire
  have hposts : toks = initReply := by
    rw [show (System.read _) ++ [initCall] = [initCall] from rfl,init_posts] at htoks
    exact (List.cons.inj htoks).1.symm
  subst hposts
  have hrun := (trace_snoc _).mpr ⟨_,hsent,hhappens (some initialised) init_understood⟩
  have hmeets : ∀ v ∈ visits (step .srv) initLabels State.start, Meets .srv v.2 v.1 := by
    simp only [initLabels,visits,List.forall_mem_cons]
    refine ⟨?_,?_,?_,fun v hv => absurd hv List.not_mem_nil⟩
    · exact fun k cmd rest htake _ => absurd htake.symm (Option.some_ne_none k)
    · exact fun k cmd rest _ _ => .inl rfl
    · exact fun k cmd rest htake _ => absurd htake.symm (Option.some_ne_none k)
  obtain ⟨-,k,cmd,-,-,-,hout⟩ := calls_served (l := .receive) hrun init_fine hmeets rfl
  rcases hout with hout | ⟨call,toks,a,b,-,-,hreply,hterm,-⟩
  · cases hout
  · exact ⟨_,hrun,rfl,toks,a,b,hreply,hterm⟩

end Example

end AspikePort.ServedCalls
