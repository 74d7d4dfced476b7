import AspikePort.ErlangTerms
import AspikePort.LabelledRuns

/-!
# The server process in front of the port

A server process sends commands to the port and waits for a data message. No
message says which command it answers: the first one in the mailbox is taken.
A ghost number on each command, and on the data that answers it, says whose
reply a command got. Callers, the port and the clock act in any order.
-/

set_option autoImplicit false

namespace AspikePort.PortServer
open AspikePort.ErlangTerms AspikePort.LabelledRuns

section Machine

/-- What `application:get_env(aspike_port, …)` finds. -/
structure AppEnv where
  host : Option Term
  port : Option Term
  user : Option Term
  psw : Option Term

inductive ServerModule where
  | srv
  | worker (env : AppEnv)

inductive Message where
  | call (caller : ℕ) (msg : Term)
  | cast (msg : Term)
  | info (msg : Term)
  /-- The port's answer to a command; `none` stands for bytes that
  `binary_to_term` refuses. -/
  | data (command : ℕ) (reply : Option Term)

def Message.answered : Message → Option (ℕ × Option Term)
  | .data command reply => some (command,reply)
  | _ => none

/-- A `handle_call` with the `call_port` calls it has made and has still to make.
A `none` stands for an expression that fails. -/
structure Handling where
  caller : ℕ
  msg : Term
  results : List Term
  rest : List (Option Term)

inductive Activity where
  | idle
  | waiting (command : ℕ) (h : Handling)
  | terminated

inductive Delivery where
  /-- `Caller ! binary_to_term(Data)`. -/
  | direct (t : Term)
  | reply (t : Term)

structure State where
  mailbox : List Message
  /-- The commands the port has received and not answered. -/
  portQueue : List ℕ
  sent : List Term
  activity : Activity
  outbox : List (ℕ × Delivery)

def State.start : State := ⟨[],[],[],.idle,[]⟩

def timeoutIsOut : Term := makeTuple2 atomError (.atom "timeout_is_out")

def undefinedOr (t : Option Term) : Term := t.getD (.atom "undefined")

def isUndefined : Term → Bool
  | .atom name => name = "undefined"
  | _ => false

def connectCommand (env : AppEnv) : Term :=
  if isUndefined (undefinedOr env.user) ∧ isUndefined (undefinedOr env.psw) then
    .tuple [.atom "anon_connect"]
  else .tuple [.atom "connect",undefinedOr env.user,undefinedOr env.psw]

def initCommand : Term := .tuple [.atom "aerospike_init"]

def isInit : Term → Bool
  | .tuple [.atom name] => name = "aerospike_init"
  | _ => false

/-- The commands that one request has `call_port` send. -/
def ServerModule.plan : ServerModule → Term → List (Option Term)
  | .srv, msg => [some msg]
  | .worker env, msg =>
    if isInit msg then
      some initCommand::match env.host, env.port with
        | some host, some port =>
          [some (.tuple [.atom "host_add",host,port]),some (connectCommand env)]
        | _, _ => [none]
    else [some msg]

def ServerModule.answer : ServerModule → Term → List Term → Term
  | .srv, _, results => results.getLastD .nil
  | .worker _, msg, results => if isInit msg then .tuple results else results.getLastD .nil

def command : Term → Option Term
  | .tuple [.atom tag,cmd] => if tag = "command" then some cmd else none
  | _ => none

def isPortInfo : Term → Bool
  | .atom name => name = "port_info"
  | _ => false

inductive Label where
  /-- A message from another process. A plain message `{_, {data, _}}`, which
  `call_port` would take for an answer of the port, is left out. -/
  | call (caller : ℕ) (msg : Term)
  | cast (msg : Term)
  | info (msg : Term)
  /-- The port answers the first command it has. -/
  | answer (reply : Option Term)
  /-- The idle server handles its first message; `portInfo` is what
  `erlang:port_info` returns. -/
  | serve (portInfo : Term)
  | receive
  | timeout

def State.post (s : State) (m : Message) : State := { s with mailbox := s.mailbox ++ [m] }

def State.send (s : State) (cmd : Term) : State :=
  { s with sent := s.sent ++ [cmd], portQueue := s.portQueue ++ [s.sent.length] }

/-- Sends the next command of a request, or replies to its caller. -/
def State.resume (m : ServerModule) (h : Handling) (s : State) : State :=
  match h.rest with
  | [] => { s with
      activity := .idle
      outbox := s.outbox ++ [(h.caller,.reply (m.answer h.msg h.results))] }
  | none::_ => { s with activity := .terminated }
  | some cmd::rest => { s.send cmd with
      activity := .waiting s.sent.length { h with rest := rest } }

section Callbacks

def handleCall (m : ServerModule) (portInfo : Term) (caller : ℕ) (msg : Term) (s : State) :
    State × Option Handling :=
  match command msg with
  | some cmd => (s,some ⟨caller,cmd,[],m.plan cmd⟩)
  | none =>
    if isPortInfo msg then ({ s with outbox := s.outbox ++ [(caller,.reply portInfo)] },none)
    else (s,none)

def handleCast (msg : Term) (s : State) : State :=
  match command msg with
  | some cmd => s.send cmd
  | none => s

/-- An answer of the port that finds no `call_port` waiting goes to `handle_info`. -/
def handleMessage (m : ServerModule) (portInfo : Term) : Message → State → State × Option Handling
  | .call caller msg, s => handleCall m portInfo caller msg s
  | .cast msg, s => (handleCast msg s,none)
  | .info _, s => (s,none)
  | .data _ _, s => (s,none)

end Callbacks

/-- The state a step leaves before it goes on with a request, and that request. -/
def Label.take (m : ServerModule) (l : Label) (s : State) : State × Option Handling :=
  match l with
  | .call caller msg => (s.post (.call caller msg),none)
  | .cast msg => (s.post (.cast msg),none)
  | .info msg => (s.post (.info msg),none)
  | .answer reply =>
    match s.portQueue with
    | [] => (s,none)
    | c::queue => ({ s with portQueue := queue, mailbox := s.mailbox ++ [.data c reply] },none)
  | .serve portInfo =>
    match s.activity, s.mailbox with
    | .idle, msg::mailbox => handleMessage m portInfo msg { s with mailbox := mailbox }
    | _, _ => (s,none)
  | .receive =>
    match s.activity, s.mailbox.findSome? Message.answered with
    | .waiting _ h, some (_,some t) =>
      ({ s with
          mailbox := s.mailbox.eraseP (fun msg => msg.answered.isSome)
          outbox := s.outbox ++ [(h.caller,.direct t)] },
        some { h with results := h.results ++ [t] })
    | .waiting _ _, some (_,none) => ({ s with activity := .terminated },none)
    | _, _ => (s,none)
  | .timeout =>
    match s.activity, s.mailbox.findSome? Message.answered with
    | .waiting _ h, none => (s,some { h with results := h.results ++ [timeoutIsOut] })
    | _, _ => (s,none)

def step (m : ServerModule) (l : Label) (s : State) : State :=
  match l.take m s with
  | (t,none) => t
  | (t,some h) => t.resume m h

end Machine

section Promise

/-- What a `call_port` returns: the reply to some command, or a timeout. -/
inductive Outcome where
  | replyTo (command : ℕ) (t : Term)
  | timedOut

/-- The command whose `call_port` returns in the step, and what it returns. -/
def Label.returns (l : Label) (s : State) : Option (ℕ × Outcome) :=
  match l, s.activity, s.mailbox.findSome? Message.answered with
  | .receive, .waiting c _, some (d,some t) => some (c,.replyTo d t)
  | .timeout, .waiting c _, none => some (c,.timedOut)
  | _, _, _ => none

def Outcome.value : Outcome → Term
  | .replyTo _ t => t
  | .timedOut => timeoutIsOut

/-- A command gets its own reply or a timeout. -/
def Right (l : Label) (s : State) : Prop :=
  ∀ c d t, l.returns s = some (c,.replyTo d t) → d = c

def answers (s : State) : List (ℕ × Option Term) := s.mailbox.filterMap Message.answered

/-- The commands whose answer the server has still to take from its mailbox. -/
def outstanding (s : State) : List ℕ := (answers s).map Prod.fst ++ s.portQueue

/-- The first answer in the mailbox ends the server when it is taken. -/
def Spoiled (s : State) : Prop := ∃ d, (answers s).head? = some (d,none)

/-- A `call_port` starts with no answer outstanding, or with one that ends the
server before the call can return. -/
def Meets (m : ServerModule) (l : Label) (s : State) : Prop :=
  ∀ h cmd rest, (l.take m s).2 = some h → h.rest = some cmd::rest →
    outstanding (l.take m s).1 = [] ∨ Spoiled (l.take m s).1

/-- The port answers or the server takes an answer. -/
def Label.Delivers : Label → Prop
  | .answer _ => True
  | .receive => True
  | _ => False

end Promise

section Steps
variable {m : ServerModule} {s : State}

theorem findSome_answers (s : State) :
    s.mailbox.findSome? Message.answered = (answers s).head? := List.head?_filterMap.symm

theorem filterMap_eraseP {α β : Type} (f : α → Option β) (l : List α) :
    (l.eraseP (fun x => (f x).isSome)).filterMap f = (l.filterMap f).tail := by
  induction l with
  | nil => rfl
  | cons x l ih =>
    cases hx : f x with
    | none => rw [List.eraseP_cons_of_neg (by simp [hx]),List.filterMap_cons_none hx,
        List.filterMap_cons_none hx,ih]
    | some y => rw [List.eraseP_cons_of_pos (by simp [hx]),List.filterMap_cons_some hx,
        List.tail_cons]

/-- The numbers of outstanding commands have been given out, and a waiting
server waits for the only one, or for the end. -/
structure Sound (s : State) : Prop where
  bounded : ∀ c ∈ outstanding s, c < s.sent.length
  waiting : ∀ c h, s.activity = .waiting c h → outstanding s = [c] ∨ Spoiled s

theorem start_sound : Sound State.start :=
  ⟨fun _ h => absurd h List.not_mem_nil,fun _ _ h => by cases h⟩

/-- What a step does before it goes on with a request. -/
inductive Effect (s t : State) : Option Handling → Prop
  | quiet (hs : answers t = answers s ∧ t.portQueue = s.portQueue ∧ t.sent = s.sent ∧
      t.activity = s.activity) (h : Option Handling) : Effect s t h
  | answered (c : ℕ) (reply : Option Term) (hs : answers t = answers s ++ [(c,reply)] ∧
      s.portQueue = c::t.portQueue ∧ t.sent = s.sent ∧ t.activity = s.activity) : Effect s t none
  | dropped (d : ℕ × Option Term) (hs : answers s = d::answers t ∧ t.portQueue = s.portQueue ∧
      t.sent = s.sent ∧ t.activity = .idle) : Effect s t none
  | posted (cmd : Term) (hs : answers t = answers s ∧ t.portQueue = s.portQueue ++ [s.sent.length] ∧
      t.sent = s.sent ++ [cmd] ∧ t.activity = .idle) : Effect s t none
  | received (d : ℕ) (r : Term) (hs : answers s = (d,some r)::answers t ∧
      t.portQueue = s.portQueue ∧ t.sent = s.sent) (h : Handling) : Effect s t (some h)
  | ended (hs : answers t = answers s ∧ t.portQueue = s.portQueue ∧ t.sent = s.sent ∧
      t.activity = .terminated) : Effect s t none

theorem answers_post (s : State) (msg : Message) :
    answers (s.post msg) = answers s ++ msg.answered.toList := by
  unfold answers State.post
  rw [List.filterMap_append]
  cases h : msg.answered <;> simp [h]

theorem answers_cons {msg : Message} {mailbox : List Message} (h : s.mailbox = msg::mailbox) :
    answers s = msg.answered.toList ++ answers { s with mailbox := mailbox } := by
  unfold answers
  rw [h]
  cases hmsg : msg.answered <;> simp [hmsg]

theorem handleCast_effect (msg : Term) {t : State} (hs : answers t = answers s ∧
    t.portQueue = s.portQueue ∧ t.sent = s.sent ∧ t.activity = .idle) (hidle : s.activity = .idle) :
    Effect s (handleCast msg t) none := by
  obtain ⟨hans,hqueue,hsent,hact⟩ := hs
  unfold handleCast
  cases command msg with
  | some cmd =>
    apply Effect.posted cmd
    show answers t = _ ∧ t.portQueue ++ [t.sent.length] = _ ∧ t.sent ++ [cmd] = _ ∧ _
    rw [hans,hqueue,hsent]
    exact ⟨rfl,rfl,rfl,hact⟩
  | none => exact .quiet ⟨hans,hqueue,hsent,hact.trans hidle.symm⟩ none

theorem handleCall_effect (m : ServerModule) (portInfo : Term) (caller : ℕ) (msg : Term)
    {t : State} (hs : answers t = answers s ∧ t.portQueue = s.portQueue ∧ t.sent = s.sent ∧
      t.activity = s.activity) :
    Effect s (handleCall m portInfo caller msg t).1 (handleCall m portInfo caller msg t).2 := by
  unfold handleCall
  cases command msg with
  | some cmd => exact .quiet hs _
  | none =>
    by_cases hinfo : isPortInfo msg = true
    · simp only [hinfo,if_true]
      apply Effect.quiet
      exact hs
    · simp only [hinfo]
      exact .quiet hs none

theorem handleMessage_effect (m : ServerModule) (portInfo : Term) (msg : Message)
    {mailbox : List Message} (hidle : s.activity = .idle) (hmail : s.mailbox = msg::mailbox) :
    Effect s (handleMessage m portInfo msg { s with mailbox := mailbox }).1
      (handleMessage m portInfo msg { s with mailbox := mailbox }).2 := by
  have hans := answers_cons hmail
  cases msg with
  | data c reply => exact .dropped (c,reply) ⟨hans,rfl,rfl,hidle⟩
  | info msg => exact .quiet ⟨hans.symm,rfl,rfl,rfl⟩ none
  | cast msg => exact handleCast_effect msg ⟨hans.symm,rfl,rfl,hidle⟩ hidle
  | call caller msg => exact handleCall_effect m portInfo caller msg ⟨hans.symm,rfl,rfl,rfl⟩

/-- Taking the first answer out of the mailbox. -/
theorem answers_taken {d : ℕ} {r : Option Term} {t : State}
    (hfind : s.mailbox.findSome? Message.answered = some (d,r))
    (ht : t.mailbox = s.mailbox.eraseP (fun msg => msg.answered.isSome)) :
    answers s = (d,r)::answers t := by
  have htail : answers t = (answers s).tail := by
    unfold answers
    rw [ht,filterMap_eraseP]
  rw [findSome_answers] at hfind
  rw [htail]
  exact (List.cons_head?_tail hfind).symm

theorem take_effect (l : Label) : Effect s (l.take m s).1 (l.take m s).2 := by
  cases l with
  | call caller msg =>
    apply Effect.quiet
    exact ⟨(answers_post s _).trans (List.append_nil _),rfl,rfl,rfl⟩
  | cast msg =>
    apply Effect.quiet
    exact ⟨(answers_post s _).trans (List.append_nil _),rfl,rfl,rfl⟩
  | info msg =>
    apply Effect.quiet
    exact ⟨(answers_post s _).trans (List.append_nil _),rfl,rfl,rfl⟩
  | answer reply =>
    simp only [Label.take]
    split
    · exact .quiet ⟨rfl,rfl,rfl,rfl⟩ none
    · rename_i c queue hq
      exact .answered c reply ⟨answers_post s (.data c reply),hq,rfl,rfl⟩
  | serve portInfo =>
    simp only [Label.take]
    split
    · rename_i msg mailbox hidle hmail
      exact handleMessage_effect m portInfo msg hidle hmail
    · exact .quiet ⟨rfl,rfl,rfl,rfl⟩ none
  | receive =>
    simp only [Label.take]
    split
    · rename_i c h d t hwait hfind
      apply Effect.received d t
      exact ⟨answers_taken hfind rfl,rfl,rfl⟩
    · exact .ended ⟨rfl,rfl,rfl,rfl⟩
    · exact .quiet ⟨rfl,rfl,rfl,rfl⟩ none
  | timeout =>
    simp only [Label.take]
    split
    · exact .quiet ⟨rfl,rfl,rfl,rfl⟩ _
    · exact .quiet ⟨rfl,rfl,rfl,rfl⟩ none

section Kept
variable {t : State} {o : Option Handling}

theorem Effect.bounded (he : Effect s t o) (hb : ∀ c ∈ outstanding s, c < s.sent.length) :
    ∀ c ∈ outstanding t, c < t.sent.length := by
  unfold outstanding at hb ⊢
  cases he with
  | quiet hs h =>
    rw [hs.1,hs.2.1,hs.2.2.1]
    exact hb
  | answered c reply hs =>
    rw [hs.2.1] at hb
    rw [hs.1,hs.2.2.1,List.map_append,List.append_assoc]
    exact hb
  | dropped d hs =>
    rw [hs.1] at hb
    rw [hs.2.1,hs.2.2.1]
    intro c hc
    exact hb c (List.mem_cons_of_mem _ hc)
  | posted cmd hs =>
    rw [hs.1,hs.2.1,hs.2.2.1,List.length_append,← List.append_assoc]
    intro c hc
    rcases List.mem_append.mp hc with hc | hc
    · exact Nat.lt_succ_of_lt (hb c hc)
    · rw [List.mem_singleton.mp hc]
      exact Nat.lt_succ_self _
  | received d r hs h =>
    rw [hs.1] at hb
    rw [hs.2.1,hs.2.2]
    intro c hc
    exact hb c (List.mem_cons_of_mem _ hc)
  | ended hs =>
    rw [hs.1,hs.2.1,hs.2.2.1]
    exact hb

/-- A step that starts no `call_port` keeps the wait of one that runs. -/
theorem Effect.waiting (he : Effect s t none)
    (hw : ∀ c h, s.activity = .waiting c h → outstanding s = [c] ∨ Spoiled s) :
    ∀ c h, t.activity = .waiting c h → outstanding t = [c] ∨ Spoiled t := by
  intro c h hact
  unfold outstanding Spoiled at hw ⊢
  cases he with
  | quiet hs =>
    rw [hs.1,hs.2.1]
    exact hw c h (hs.2.2.2.symm.trans hact)
  | answered d reply hs =>
    rw [hs.1]
    rcases hw c h (hs.2.2.2.symm.trans hact) with hone | ⟨d',hspoiled⟩
    · left
      rw [hs.2.1] at hone
      rw [List.map_append,List.append_assoc]
      exact hone
    · right
      refine ⟨d',?_⟩
      rw [List.head?_append,hspoiled]
      rfl
  | dropped d hs =>
    rw [hs.2.2.2] at hact
    cases hact
  | posted cmd hs =>
    rw [hs.2.2.2] at hact
    cases hact
  | ended hs =>
    rw [hs.2.2.2] at hact
    cases hact

end Kept

theorem resume_sound {h : Handling} (hb : ∀ c ∈ outstanding s, c < s.sent.length)
    (hm : ∀ cmd rest, h.rest = some cmd::rest → outstanding s = [] ∨ Spoiled s) :
    Sound (s.resume m h) := by
  unfold State.resume
  split
  · exact ⟨hb,fun c k hact => by cases hact⟩
  · exact ⟨hb,fun c k hact => by cases hact⟩
  · rename_i cmd rest hrest
    constructor
    · show ∀ c ∈ (answers s).map Prod.fst ++ (s.portQueue ++ [s.sent.length]),
        c < (s.sent ++ [cmd]).length
      rw [List.length_append,← List.append_assoc]
      intro c hc
      rcases List.mem_append.mp hc with hc | hc
      · exact Nat.lt_succ_of_lt (hb c hc)
      · rw [List.mem_singleton.mp hc]
        exact Nat.lt_succ_self _
    · intro c k hact
      cases hact
      rcases hm cmd rest hrest with hnone | hspoiled
      · left
        show (answers s).map Prod.fst ++ (s.portQueue ++ [s.sent.length]) = [s.sent.length]
        rw [← List.append_assoc]
        exact congrArg (· ++ [s.sent.length]) hnone
      · exact Or.inr hspoiled

theorem step_sound (l : Label) (h : Sound s) (hm : Meets m l s) : Sound (step m l s) := by
  have he := take_effect (m := m) (s := s) l
  have hb := he.bounded h.bounded
  unfold step
  unfold Meets at hm
  cases htake : l.take m s with
  | mk t o =>
    rw [htake] at he hb hm
    cases o with
    | none => exact ⟨hb,he.waiting h.waiting⟩
    | some k => exact resume_sound hb (fun cmd rest hrest => hm k cmd rest rfl hrest)

theorem first_of_waiting (h : Sound s) {c d : ℕ} {k : Handling} {r : Term}
    (hact : s.activity = .waiting c k) (hfirst : (answers s).head? = some (d,some r)) :
    outstanding s = [c] := by
  rcases h.waiting c k hact with hone | ⟨d',hspoiled⟩
  · exact hone
  · rw [hfirst] at hspoiled
    cases hspoiled

theorem sound_right (h : Sound s) (l : Label) : Right l s := by
  intro c d t hret
  unfold Label.returns at hret
  split at hret
  · rename_i c' k d' t' hact hfind
    cases hret
    rw [findSome_answers] at hfind
    have hone := first_of_waiting h hact hfind
    unfold outstanding at hone
    rw [← List.cons_head?_tail hfind] at hone
    exact (List.cons.inj hone).1
  · cases hret
  · cases hret

theorem taken_empty {t : State} {c : ℕ} {d : ℕ × Option Term} (hone : outstanding s = [c])
    (hans : answers s = d::answers t) (hqueue : t.portQueue = s.portQueue) :
    outstanding t = [] := by
  unfold outstanding at hone ⊢
  rw [hans,← hqueue] at hone
  exact (List.cons.inj hone).2

/-- While the server is sound, what the port delivers cannot break the condition:
a further call starts only after the one answer has been taken. -/
theorem delivers_meets {l : Label} (h : Sound s) (hl : l.Delivers) : Meets m l s := by
  intro k cmd rest htake hrest
  cases l with
  | answer reply =>
    simp only [Label.take] at htake
    split at htake <;> cases htake
  | receive =>
    simp only [Label.take] at htake ⊢
    split at htake
    · rename_i c k' d r hact hfind
      have htaken := hfind
      rw [findSome_answers] at hfind
      have hone := first_of_waiting h hact hfind
      left
      simp only [hact]
      exact taken_empty hone (answers_taken htaken rfl) rfl
    · cases htake
    · cases htake
  | _ => exact absurd hl not_false

theorem returns_receive {c d : ℕ} {k : Handling} {r : Term} (hact : s.activity = .waiting c k)
    (hfirst : (answers s).head? = some (d,some r)) :
    Label.receive.returns s = some (c,.replyTo d r) := by
  rw [← findSome_answers] at hfirst
  simp only [Label.returns,hact,hfirst]

/-- The value that is returned goes into the results of the request. -/
theorem returns_value (m : ServerModule) {l : Label} {c : ℕ} {o : Outcome}
    (h : l.returns s = some (c,o)) : ∃ k, s.activity = .waiting c k ∧
      (l.take m s).2 = some { k with results := k.results ++ [o.value] } := by
  unfold Label.returns at h
  split at h
  · rename_i k d t hact hfind
    cases h
    refine ⟨k,hact,?_⟩
    simp only [Label.take,hact,hfind]
    rfl
  · rename_i k hact hfind
    cases h
    refine ⟨k,hact,?_⟩
    simp only [Label.take,hact,hfind]
    rfl
  · cases h

/-- After a command is sent behind others, the port's next answer leaves a
reply to one of the others as the first in the mailbox. -/
theorem answered_first {n : ℕ} (hb : ∀ c ∈ outstanding s, c < n) (hnone : outstanding s ≠ [])
    (hspoiled : ¬Spoiled s) {q : ℕ} {queue : List ℕ} (hq : s.portQueue ++ [n] = q::queue) :
    ∃ d r, (answers s ++ [(q,some Term.nil)]).head? = some (d,some r) ∧ d < n := by
  unfold outstanding at hb hnone
  cases hans : answers s with
  | nil =>
    rw [hans] at hb hnone
    cases hqueue : s.portQueue with
    | nil => exact absurd hqueue hnone
    | cons c cs =>
      rw [hqueue] at hq hb
      obtain ⟨rfl,-⟩ := List.cons.inj hq
      exact ⟨c,.nil,rfl,hb c List.mem_cons_self⟩
  | cons a rest =>
    obtain ⟨d,r⟩ := a
    rw [hans] at hb
    cases r with
    | none => exact absurd ⟨d,by rw [hans]; rfl⟩ hspoiled
    | some r => exact ⟨d,r,rfl,hb d List.mem_cons_self⟩

/-- A `call_port` that starts otherwise can be given an earlier command's reply:
the port answers what it has, and the server takes the first answer. -/
theorem violated_wrong {l : Label} (h : Sound s) (hm : ¬Meets m l s) :
    ∃ v ∈ visits (step m) [l,.answer (some .nil),.receive] s, ¬Right v.2 v.1 := by
  unfold Meets at hm
  push Not at hm
  obtain ⟨k,cmd,rest,htake,hrest,hnone,hspoiled⟩ := hm
  have hb := (take_effect (m := m) (s := s) l).bounded h.bounded
  generalize htaken : (l.take m s).1 = t at hnone hspoiled hb
  obtain ⟨q,queue,hq⟩ := List.exists_cons_of_ne_nil (List.append_ne_nil_of_right_ne_nil t.portQueue
    (List.cons_ne_nil t.sent.length []))
  obtain ⟨d,r,hfirst,hlt⟩ := answered_first hb hnone hspoiled hq
  have hsent : step m l s = { t.send cmd with
      activity := .waiting t.sent.length { k with rest := rest } } := by
    have hstep : step m l s = t.resume m k := by
      unfold step
      cases htaking : l.take m s with
      | mk t' o =>
        rw [htaking] at htake htaken
        cases htake
        cases htaken
        rfl
    rw [hstep]
    unfold State.resume
    rw [hrest]
  have hanswered : step m (.answer (some .nil)) (step m l s) = { step m l s with
      portQueue := queue, mailbox := t.mailbox ++ [.data q (some .nil)] } := by
    rw [hsent]
    unfold step
    simp only [Label.take,State.send]
    rw [hq]
  refine ⟨(step m (.answer (some .nil)) (step m l s),.receive),by simp [visits],?_⟩
  intro hright
  have hret := returns_receive (s := step m (.answer (some .nil)) (step m l s))
    (c := t.sent.length) (k := { k with rest := rest }) (d := d) (r := r) (by rw [hanswered,hsent])
    (by
      rw [hanswered]
      exact (congrArg List.head? (answers_post t (.data q (some .nil)))).trans hfirst)
  exact absurd (hright _ _ _ hret) (Nat.ne_of_lt hlt)

end Steps

section Runs

theorem meets_sound (m : ServerModule) (as : List Label) {s : State} (h : Sound s)
    (hm : ∀ v ∈ visits (step m) as s, Meets m v.2 v.1) : Sound (run (step m) as s) := by
  induction as generalizing s with
  | nil => exact h
  | cons a as ih =>
    have hhead := List.forall_mem_cons.mp hm
    exact ih (step_sound a h hhead.1) hhead.2

theorem meets_right (m : ServerModule) (as : List Label) {s : State} (h : Sound s)
    (hm : ∀ v ∈ visits (step m) as s, Meets m v.2 v.1) :
    ∀ v ∈ visits (step m) as s, Right v.2 v.1 := by
  induction as generalizing s with
  | nil => exact fun v hv => absurd hv List.not_mem_nil
  | cons a as ih =>
    have hhead := List.forall_mem_cons.mp hm
    rw [visits,List.forall_mem_cons]
    constructor
    · exact sound_right h a
    · exact ih (step_sound a h hhead.1) hhead.2

theorem deliveries_meet (m : ServerModule) {bs : List Label} {s : State} (h : Sound s)
    (hbs : ∀ b ∈ bs, b.Delivers) : ∀ v ∈ visits (step m) bs s, Meets m v.2 v.1 := by
  induction bs generalizing s with
  | nil => exact fun v hv => absurd hv List.not_mem_nil
  | cons b bs ih =>
    have hhead := List.forall_mem_cons.mp hbs
    have hmeets := delivers_meets (m := m) h hhead.1
    rw [visits,List.forall_mem_cons]
    constructor
    · exact hmeets
    · exact ih (step_sound b h hmeets) hhead.2

/-- Every `call_port` of a run starts with nothing outstanding exactly when all
of them get their own reply or a timeout, here and whatever the port delivers
next at any point of the run. -/
theorem replies_matched_iff (m : ServerModule) (as : List Label) :
    (∀ v ∈ visits (step m) as State.start, Meets m v.2 v.1) ↔
      ∀ p, p <+: as → ∀ bs : List Label, (∀ b ∈ bs, b.Delivers) →
        ∀ v ∈ visits (step m) (p ++ bs) State.start, Right v.2 v.1 := by
  constructor
  · rintro hm p ⟨rest,rfl⟩ bs hbs
    rw [visits_append] at hm
    have hp := (List.forall_mem_append.mp hm).1
    apply meets_right m _ start_sound
    rw [visits_append,List.forall_mem_append]
    exact ⟨hp,deliveries_meet m (meets_sound m p start_sound hp) hbs⟩
  · intro hright
    induction as using List.reverseRecOn with
    | nil => exact fun v hv => absurd hv List.not_mem_nil
    | append_singleton as a ih =>
      have hm := ih (fun p hp => hright p (hp.trans (List.prefix_append as [a])))
      rw [visits_snoc,List.forall_mem_append]
      constructor
      · exact hm
      · intro v hv
        rw [List.mem_singleton.mp hv]
        by_contra hviolated
        obtain ⟨w,hw,hwrong⟩ := violated_wrong (meets_sound m as start_sound hm) hviolated
        have hall := hright (as ++ [a]) List.prefix_rfl [.answer (some .nil),.receive]
          (by simp [Label.Delivers])
        rw [List.append_assoc,visits_append] at hall
        exact hwrong (hall w (List.mem_append_right _ hw))

section Example

def lateReply (a b : Term) : List Label := [.call 0 (.tuple [.atom "command",a]),.serve .nil,
  .timeout,.call 1 (.tuple [.atom "command",b]),.serve .nil,.answer (some (.integer 0)),.receive]

/-- The first command times out; the second one is given its reply. -/
theorem late_reply_misdelivered : ¬∀ (m : ServerModule) (as : List Label),
    ∀ v ∈ visits (step m) as State.start, Right v.2 v.1 := by
  intro hall
  have hright := hall .srv (lateReply (.atom "a") (.atom "b")) _
    (List.mem_of_getElem? (i := 6) rfl)
  exact absurd (hright 1 0 (.integer 0) rfl) (by decide)

end Example

end Runs

end AspikePort.PortServer
