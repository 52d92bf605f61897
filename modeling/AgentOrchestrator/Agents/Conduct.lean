import AgentOrchestrator.Agents.Usage
import AgentOrchestrator.Lib.Attempt
import AgentOrchestrator.Lib.Dialogue

/-!
# The conduct of a specialist

`Conduct` is what a run of a specialist has done so far, as its own commands show it: the conversations it has sent to
the model, the replies, the tools it has used with what came of them, and what it has logged.  `follows_conduct` says how
the conversations and the result of a run go with it, from one walk through the code of the run.
-/

namespace AgentOrchestrator

/-- A message of the model asks for its tool calls, and the result of a tool answers one. -/
def Turn.utterance : Turn → Utterance String
  | .system _ => .tells
  | .human _ => .tells
  | .ai message => .asks (message.toolCalls.map (·.id))
  | .tool _ toolCallId => .answers toolCallId

namespace SpecialistAgent

/-! ### What the commands show -/

/-- The conversation that a call of the model sends. -/
def sending : Command → Option (List Turn)
  | .invoke _ _ messages => some messages
  | .structured _ messages => some messages
  | _ => none

/-- A reply of the model, in the loop or after it. -/
def reply (inLoop : Bool) : (c : Command) → Response c → Option ToolCallingMessage
  | .invoke _ withTools _, .ok message => if withTools = inLoop then some message else none
  | _, _ => none

/-- The use of a tool, up to the moment at which it is logged. -/
def usedTool : (c : Command) → Response c → Option (ToolCall × Except String ToolCallLog)
  | .useTool _ _ call, r => some (call, r)
  | _, _ => none

def logging : Command → Option ToolCallLog
  | .appendLog _ log => some log
  | _ => none

/-- A structured answer that has been parsed. -/
def parsedOutput : (c : Command) → Response c → Option SpecialistOutput
  | .structured _ _, .ok (_, output) => output
  | _, _ => none

structure Conduct where
  last : Option (Option TokenUsage) := none
  sent : List (List Turn) := []
  replies : List ToolCallingMessage := []
  forced : List ToolCallingMessage := []
  used : List (ToolCall × Except String ToolCallLog) := []
  logged : List ToolCallLog := []
  parsed : List SpecialistOutput := []

def Conduct.next (g : Conduct) (c : Command) (r : Response c) : Conduct where
  last := (written c r).or g.last
  sent := g.sent ++ (sending c).toList
  replies := g.replies ++ (reply true c r).toList
  forced := g.forced ++ (reply false c r).toList
  used := g.used ++ (usedTool c r).toList
  logged := g.logged ++ (logging c).toList
  parsed := g.parsed ++ (parsedOutput c r).toList

/-- The conversation has no reply of the model but those received, and it waits for no answer if the reply after the loop
has asked for none. -/
def Conduct.Sound (g : Conduct) (messages : List Turn) : Prop :=
  (∀ message, .ai message ∈ messages → message ∈ g.replies ++ g.forced) ∧
    ((∀ message ∈ g.forced, message.toolCalls = []) → Dialogue.Waiting [] (messages.map Turn.utterance))

/-- A run sends at most six conversations, uses only the tools it has, and expects to find what it has left in its object
and, after `base`, in its call log. -/
def conduct (agent : SpecialistAgent) (base : List ToolCallLog) : Protocol Command Response Conduct where
  next := Conduct.next
  guarantee g c :=
    match c with
    | .now => True
    | .bindTools _ => True
    | .invoke _ _ messages => g.sent.length < 6 ∧ g.Sound messages
    | .structured _ messages => g.sent.length < 6 ∧ g.Sound messages
    | .useTool ref specialist call => ref = agent.ref ∧ specialist = agent.specialistType ∧ call.name ∈ agent.lcTools
    | .readLog registry => registry = agent.ref.registry
    | .appendLog registry _ => registry = agent.ref.registry
    | .read ref _ => ref = agent.ref ∧ g.last ≠ none
    | .write ref _ => ref = agent.ref
    | _ => False
  rely g c r :=
    match c, r with
    | .readLog _, r => r = base ++ g.logged
    | .read _ .usage, usage => g.last = some usage
    | _, _ => True

/-! ### The answers of a conversation -/

/-- A tool call of the model is answered by the text that its tool returns, or by the exception. -/
def toolAnswer (call : ToolCall) : Except String ToolCallLog → Except String String
  | .error e => .error e
  | .ok log =>
    if log.success then .ok (log.output.getD "")
    else .error ((log.error.filter fun e => e ≠ "").getD ("Tool '" ++ call.name ++ "' failed."))

def answerText : Except String String → String
  | .ok result => result
  | .error e => "ERROR: " ++ e

/-- The tool calls that are not answered yet, and those that are, with their answers. -/
def hear (heard : List ToolCall × List (ToolCall × String)) : Turn → List ToolCall × List (ToolCall × String)
  | .ai message => (message.toolCalls, heard.2)
  | .tool content _ =>
    match heard.1 with
    | [] => heard
    | call :: pending => (pending, heard.2 ++ [(call, content)])
  | _ => heard

def heard (messages : List Turn) : List ToolCall × List (ToolCall × String) := messages.foldl hear ([], [])

/-- The tool calls of a conversation with their answers. -/
def answers (messages : List Turn) : List (ToolCall × String) := (heard messages).2

theorem heard_snoc (messages : List Turn) (turn : Turn) : heard (messages ++ [turn]) = hear (heard messages) turn :=
  List.foldl_concat ..

theorem answers_human (messages : List Turn) (content : String) :
    answers (messages ++ [.human content]) = answers messages := by
  unfold answers
  rw [heard_snoc]
  rfl

/-- A reply is not an answer; what it asks for takes the place of what was pending. -/
theorem answers_ai (messages : List Turn) (message : ToolCallingMessage) :
    answers (messages ++ [.ai message]) = answers messages := by
  unfold answers
  rw [heard_snoc]
  rfl

/-- The conversation answers the calls of tools that exist by what has come of them. -/
def Told (agent : SpecialistAgent) (g : Conduct) (messages : List Turn) : Prop :=
  (answers messages).filter (fun e => e.1.name ∈ agent.lcTools) =
    g.used.map fun u => (u.1, answerText (toolAnswer u.1 u.2))

/-- What is logged, and what is returned of it, is what has come of the tools used. -/
structure Noted (g : Conduct) (made : List ToolCallLog) : Prop where
  made_eq : made = g.logged
  logged_eq : g.logged = g.used.filterMap (·.2.toOption)

/-- The state of the loop; `pending` are the tool calls of the last reply that are still to be made. -/
structure Conversing (agent : SpecialistAgent) (pending : List ToolCall) (g : Conduct) (messages : List Turn)
    (made : List ToolCallLog) : Prop where
  waiting : Dialogue.Waiting (pending.map (·.id)) (messages.map Turn.utterance)
  spoken : ∀ message, .ai message ∈ messages → message ∈ g.replies
  pending_eq : (heard messages).1 = pending
  requested : g.replies.flatMap (·.toolCalls) = (answers messages).map Prod.fst ++ pending
  told : Told agent g messages
  noted : Noted g made
  forced_eq : g.forced = []
  parsed_eq : g.parsed = []

/-- What holds when the run has ended: every tool call of the loop has been made, and the last conversation has its
answer. -/
structure Settled (agent : SpecialistAgent) (g : Conduct) (made : List ToolCallLog) : Prop where
  requested : (g.replies.flatMap (·.toolCalls)).filter (fun call => call.name ∈ agent.lcTools) = g.used.map Prod.fst
  told : Told agent g (g.sent.getLast?.getD [])
  noted : Noted g made
  closing : ∀ message ∈ g.forced, ∃ pre, pre ++ [.ai message] ∈ g.sent

/-- The state before the structured answer. -/
structure Concluding (agent : SpecialistAgent) (g : Conduct) (messages : List Turn) (made : List ToolCallLog) :
    Prop where
  sound : g.Sound messages
  requested : (g.replies.flatMap (·.toolCalls)).filter (fun call => call.name ∈ agent.lcTools) = g.used.map Prod.fst
  told : Told agent g messages
  noted : Noted g made
  closing : ∀ message ∈ g.forced, ∃ pre, messages = pre ++ [.ai message]
  parsed_eq : g.parsed = []

/-! ### The walk -/

variable {agent : SpecialistAgent} {base : List ToolCallLog} {g : Conduct} {a : Attempt} {pending : List ToolCall}

section Next

variable (g)

theorem next_eq_of {c : Command} {r : Response c} {g' : Conduct} (hlast : (written c r).or g.last = g'.last)
    (hsent : g.sent ++ (sending c).toList = g'.sent) (hreplies : g.replies ++ (reply true c r).toList = g'.replies)
    (hforced : g.forced ++ (reply false c r).toList = g'.forced) (hused : g.used ++ (usedTool c r).toList = g'.used)
    (hlogged : g.logged ++ (logging c).toList = g'.logged)
    (hparsed : g.parsed ++ (parsedOutput c r).toList = g'.parsed) : g.next c r = g' := by
  unfold Conduct.next
  rw [hlast, hsent, hreplies, hforced, hused, hlogged, hparsed]

/-- A command that shows nothing. -/
theorem next_of_quiet {c : Command} {r : Response c} (hlast : written c r = none) (hsent : sending c = none)
    (hreply : ∀ inLoop, reply inLoop c r = none) (hused : usedTool c r = none) (hlogged : logging c = none)
    (hparsed : parsedOutput c r = none) : g.next c r = g := by
  refine next_eq_of g ?_ ?_ ?_ ?_ ?_ ?_ ?_
  · rw [hlast, Option.none_or]
  · rw [hsent, Option.toList_none, List.append_nil]
  · rw [hreply, Option.toList_none, List.append_nil]
  · rw [hreply, Option.toList_none, List.append_nil]
  · rw [hused, Option.toList_none, List.append_nil]
  · rw [hlogged, Option.toList_none, List.append_nil]
  · rw [hparsed, Option.toList_none, List.append_nil]

@[simp] theorem next_write_prompt (ref : AgentRef) (prompt : Option String) (r : Unit) :
    g.next (.write ref (.prompt prompt)) r = g :=
  next_of_quiet g rfl rfl (fun _ => rfl) rfl rfl rfl

@[simp] theorem next_write_responseText (ref : AgentRef) (text : Option String) (r : Unit) :
    g.next (.write ref (.responseText text)) r = g :=
  next_of_quiet g rfl rfl (fun _ => rfl) rfl rfl rfl

@[simp] theorem next_read (ref : AgentRef) (name : AttributeName) (r : name.Value) : g.next (.read ref name) r = g :=
  next_of_quiet g rfl rfl (fun _ => rfl) rfl rfl rfl

@[simp] theorem next_readLog (registry : Option Nat) (r : List ToolCallLog) : g.next (.readLog registry) r = g :=
  next_of_quiet g rfl rfl (fun _ => rfl) rfl rfl rfl

@[simp] theorem next_bindTools (ref : AgentRef) (r : Except LlmError Unit) : g.next (.bindTools ref) r = g :=
  next_of_quiet g rfl rfl (fun _ => rfl) rfl rfl rfl

@[simp] theorem next_write_usage (ref : AgentRef) (u : Option TokenUsage) (r : Unit) :
    g.next (.write ref (.usage u)) r = { g with last := some u } := by
  refine next_eq_of g rfl ?_ ?_ ?_ ?_ ?_ ?_ <;> exact List.append_nil _

@[simp] theorem next_appendLog (registry : Option Nat) (log : ToolCallLog) (r : Unit) :
    g.next (.appendLog registry log) r = { g with logged := g.logged ++ [log] } := by
  refine next_eq_of g rfl ?_ ?_ ?_ ?_ rfl ?_ <;> exact List.append_nil _

@[simp] theorem next_useTool (ref : AgentRef) (specialist : SpecialistType) (call : ToolCall)
    (r : Except String ToolCallLog) :
    g.next (.useTool ref specialist call) r = { g with used := g.used ++ [(call, r)] } := by
  refine next_eq_of g rfl ?_ ?_ ?_ rfl ?_ ?_ <;> exact List.append_nil _

@[simp] theorem next_invoke_error (ref : AgentRef) (withTools : Bool) (messages : List Turn) (e : LlmError) :
    g.next (.invoke ref withTools messages) (.error e) = { g with sent := g.sent ++ [messages] } := by
  refine next_eq_of g rfl rfl ?_ ?_ ?_ ?_ ?_ <;> exact List.append_nil _

@[simp] theorem next_invoke_loop (ref : AgentRef) (messages : List Turn) (message : ToolCallingMessage) :
    g.next (.invoke ref true messages) (.ok message) =
      { g with sent := g.sent ++ [messages], replies := g.replies ++ [message] } := by
  refine next_eq_of g rfl rfl rfl ?_ ?_ ?_ ?_ <;> exact List.append_nil _

@[simp] theorem next_invoke_forced (ref : AgentRef) (messages : List Turn) (message : ToolCallingMessage) :
    g.next (.invoke ref false messages) (.ok message) =
      { g with sent := g.sent ++ [messages], forced := g.forced ++ [message] } := by
  refine next_eq_of g rfl rfl ?_ rfl ?_ ?_ ?_ <;> exact List.append_nil _

@[simp] theorem next_structured_error (ref : AgentRef) (messages : List Turn) (e : LlmError) :
    g.next (.structured ref messages) (.error e) = { g with sent := g.sent ++ [messages] } := by
  refine next_eq_of g rfl rfl ?_ ?_ ?_ ?_ ?_ <;> exact List.append_nil _

@[simp] theorem next_structured_ok (ref : AgentRef) (messages : List Turn) (raw : AiMessage)
    (output : Option SpecialistOutput) :
    g.next (.structured ref messages) (.ok (raw, output)) =
      { g with sent := g.sent ++ [messages], parsed := g.parsed ++ output.toList } := by
  refine next_eq_of g rfl rfl ?_ ?_ ?_ ?_ rfl <;> exact List.append_nil _

end Next

/-- `accumulate` after a write of `last_usage`. -/
theorem conduct_accumulate {u : Option TokenUsage} (h : g.last = some u) :
    Prog.Tries (conduct agent base)
      (fun _ g' a' => g' = g ∧ a'.messages = a.messages ∧ a'.toolCallsMade = a.toolCallsMade) (fun _ _ => False)
      (accumulate agent.ref) g a := by
  unfold accumulate
  have hread : Prog.Tries (conduct agent base) (fun r g' a' => r = u ∧ g' = g ∧ a' = a) (fun _ _ => False)
      (readUsage agent.ref) g a :=
    tries_readUsage_of_found ⟨rfl, by simp [h]⟩ (fun r => next_read g _ _ r) fun _ husage =>
      (Option.some.inj (h.symm.trans husage)).symm
  refine .bind (.mono hread (fun r g' a' hr => ?_) fun _ _ h => h)
  obtain ⟨rfl, rfl, rfl⟩ := hr
  cases r with
  | none => exact .pure ⟨rfl, rfl, rfl⟩
  | some r => exact .modify _ ⟨rfl, rfl, rfl⟩

/-- A call of the model sends the conversation, and the reply is added to it. -/
theorem conduct_invoke (withTools : Bool) (hlt : g.sent.length < 6) (hsound : g.Sound a.messages) :
    Prog.Tries (conduct agent base)
      (fun message g' a' =>
        (∃ last, g' = { g.next (.invoke agent.ref withTools a.messages) (.ok message) with last := last }) ∧
          a'.messages = a.messages ++ [.ai message] ∧ a'.toolCallsMade = a.toolCallsMade)
      (fun g' a' => g' = { g with sent := g.sent ++ [a.messages] } ∧ a' = a) (invoke agent withTools) g a := by
  unfold invoke
  refine .bind (.get (.bind (.send ⟨hlt, hsound⟩ fun reply _ => ?_)))
  cases reply with
  | error e => exact .throw ⟨next_invoke_error .., rfl⟩
  | ok message =>
    refine .bind (.send rfl fun _ _ => ?_)
    have hwrite : ∀ r, (conduct agent base).next _ (.write agent.ref (.usage message.tokenUsage)) r = _ :=
      next_write_usage (g.next (.invoke agent.ref withTools a.messages) (.ok message)) agent.ref message.tokenUsage
    refine .bind (.mono (conduct_accumulate (congrArg Conduct.last (hwrite _))) (fun _ g' a' hkept => ?_)
      fun _ _ hfalse => hfalse.elim)
    obtain ⟨rfl, hmessages, hmade⟩ := hkept
    exact .bind (.modify _ (.pure ⟨⟨_, hwrite _⟩, congrArg (· ++ [_]) hmessages, hmade⟩))

/-- The use of a tool: its answer, and its entry in the log if it has come to that. -/
theorem conduct_useTool {call : ToolCall} (hcall : call.name ∈ agent.lcTools) :
    Prog.Tries (conduct agent base)
      (fun text g' a' => a' = a ∧ ∃ r, text = answerText (toolAnswer call r) ∧
        g' = { g with used := g.used ++ [(call, r)], logged := g.logged ++ r.toOption.toList })
      (fun _ _ => False) (useTool agent call) g a := by
  unfold useTool
  refine .bind (.send ⟨rfl, rfl, hcall⟩ fun r _ => ?_)
  cases r with
  | error e =>
    refine .pure ⟨rfl, .error e, rfl, ?_⟩
    exact (next_useTool g _ _ call (.error e)).trans (by simp [Except.toOption])
  | ok log =>
    refine .bind (.send rfl fun _ _ => ?_)
    have hnext : ∀ r, (conduct agent base).next ((conduct agent base).next g (.useTool agent.ref agent.specialistType call)
        (.ok log)) (.appendLog agent.ref.registry log) r =
          { g with used := g.used ++ [(call, .ok log)], logged := g.logged ++ [log] } := fun r =>
      (congrArg (fun g' : Conduct => g'.next (.appendLog agent.ref.registry log) r) (next_useTool g _ _ call (.ok log))).trans
        (next_appendLog ..)
    cases hsuccess : log.success with
    | true => exact .pure ⟨rfl, .ok log, by simp [toolAnswer, answerText, hsuccess], hnext _⟩
    | false => exact .pure ⟨rfl, .ok log, by simp [toolAnswer, answerText, hsuccess], hnext _⟩

section Answer

variable {call : ToolCall} {messages : List Turn} {made : List ToolCallLog}

/-- The answer to the next of the pending calls. -/
theorem answers_tool (h : (heard messages).1 = call :: pending) (content id : String) :
    (heard (messages ++ [.tool content id])).1 = pending ∧
      answers (messages ++ [.tool content id]) = answers messages ++ [(call, content)] := by
  unfold answers
  rw [heard_snoc]
  simp [hear, h]

theorem Conversing.waiting_answer (h : Conversing agent (call :: pending) g messages made) (content : String) :
    Dialogue.Waiting (pending.map (·.id)) ((messages ++ [Turn.tool content call.id]).map Turn.utterance) := by
  rw [List.map_append]
  exact .answers h.waiting

theorem Conversing.requested_answer (h : Conversing agent (call :: pending) g messages made) (content : String) :
    g.replies.flatMap (·.toolCalls) = (answers (messages ++ [Turn.tool content call.id])).map Prod.fst ++ pending := by
  rw [h.requested, (answers_tool h.pending_eq content call.id).2, List.map_append, List.append_assoc]
  rfl

/-- A call of a tool that exists. -/
theorem Conversing.answer (h : Conversing agent (call :: pending) g messages made) (hcall : call.name ∈ agent.lcTools)
    (r : Except String ToolCallLog) :
    Conversing agent pending { g with used := g.used ++ [(call, r)], logged := g.logged ++ r.toOption.toList }
      (messages ++ [.tool (answerText (toolAnswer call r)) call.id]) (made ++ r.toOption.toList) where
  waiting := h.waiting_answer _
  spoken message hmessage := h.spoken message (by simpa using hmessage)
  pending_eq := (answers_tool h.pending_eq _ _).1
  requested := h.requested_answer _
  told := by
    have htold : (answers messages).filter _ = _ := h.told
    unfold Told
    rw [(answers_tool h.pending_eq _ _).2, List.filter_append, htold, List.map_append]
    simp [hcall]
  noted := by
    refine ⟨congrArg (· ++ _) h.noted.made_eq, ?_⟩
    rw [h.noted.logged_eq, List.filterMap_append]
    cases r <;> rfl
  forced_eq := h.forced_eq
  parsed_eq := h.parsed_eq

/-- A call of a tool whose name the model has made up. -/
theorem Conversing.answer_unknown (h : Conversing agent (call :: pending) g messages made)
    (hcall : call.name ∉ agent.lcTools) (content : String) :
    Conversing agent pending g (messages ++ [.tool content call.id]) made where
  waiting := h.waiting_answer _
  spoken message hmessage := h.spoken message (by simpa using hmessage)
  pending_eq := (answers_tool h.pending_eq _ _).1
  requested := h.requested_answer _
  told := by
    have htold : (answers messages).filter _ = _ := h.told
    unfold Told
    rw [(answers_tool h.pending_eq _ _).2, List.filter_append, htold]
    simp [hcall]
  noted := h.noted
  forced_eq := h.forced_eq
  parsed_eq := h.parsed_eq

end Answer

theorem conduct_callTool {call : ToolCall} (h : Conversing agent (call :: pending) g a.messages a.toolCallsMade) :
    Prog.Tries (conduct agent base)
      (fun _ g' a' => g'.sent = g.sent ∧ Conversing agent pending g' a'.messages a'.toolCallsMade) (fun _ _ => False)
      (callTool agent call) g a := by
  unfold callTool
  refine .bind (.send rfl fun before hbefore => ?_)
  rw [show (conduct agent base).next g (.readLog agent.ref.registry) before = g from next_readLog ..]
  split
  · rename_i hcall
    refine .bind (.mono (conduct_useTool hcall) (fun text g' a' hused => ?_) fun _ _ hfalse => hfalse.elim)
    obtain ⟨rfl, r, rfl, rfl⟩ := hused
    refine .bind (.send rfl fun after hafter => ?_)
    rw [show (conduct agent base).next _ (.readLog agent.ref.registry) after = _ from next_readLog ..]
    -- what has been logged in between is what the call has come to
    have hnew : after.drop before.length = r.toOption.toList := by
      rw [show before = base ++ g.logged from hbefore, show after = base ++ (g.logged ++ r.toOption.toList) from hafter,
        ← List.append_assoc, List.drop_left]
    rw [hnew]
    exact .bind (.modify _ (.modify _ ⟨rfl, h.answer hcall r⟩))
  · rename_i hcall
    exact .modify _ ⟨rfl, h.answer_unknown hcall _⟩

/-! ### The loop -/

section Loop

variable {messages : List Turn} {made : List ToolCallLog}

theorem conversing_start (agent : SpecialistAgent) (system prompt : String) :
    Conversing agent [] {} [.system system, .human prompt] [] where
  waiting := .tells (.tells .nil)
  spoken message hmessage := absurd hmessage (by simp)
  pending_eq := rfl
  requested := rfl
  told := rfl
  noted := ⟨rfl, rfl⟩
  forced_eq := rfl
  parsed_eq := rfl

/-- The request to answer now. -/
theorem Conversing.human (h : Conversing agent [] g messages made) (content : String) :
    Conversing agent [] g (messages ++ [.human content]) made where
  waiting := by
    rw [List.map_append]
    exact .tells h.waiting
  spoken message hmessage := h.spoken message (by simpa using hmessage)
  pending_eq := by
    rw [heard_snoc]
    exact h.pending_eq
  requested := by
    rw [answers_human]
    exact h.requested
  told := by
    unfold Told
    rw [answers_human]
    exact h.told
  noted := h.noted
  forced_eq := h.forced_eq
  parsed_eq := h.parsed_eq

/-- No reply is forced yet, so the conversation waits for nothing. -/
theorem Conversing.sound (h : Conversing agent [] g messages made) : g.Sound messages :=
  ⟨fun message hmessage => List.mem_append_left _ (h.spoken message hmessage), fun _ => h.waiting⟩

theorem Conversing.used_eq (h : Conversing agent [] g messages made) :
    (g.replies.flatMap (·.toolCalls)).filter (fun call => call.name ∈ agent.lcTools) = g.used.map Prod.fst := by
  have htold : (answers messages).filter _ = _ := h.told
  rw [h.requested, List.append_nil, List.filter_map]
  show ((answers messages).filter fun e => e.1.name ∈ agent.lcTools).map Prod.fst = _
  rw [htold, List.map_map]
  rfl

theorem Conversing.concluding (h : Conversing agent [] g messages made) : Concluding agent g messages made where
  sound := h.sound
  requested := h.used_eq
  told := h.told
  noted := h.noted
  closing message hmessage := absurd hmessage (by rw [h.forced_eq]; exact List.not_mem_nil)
  parsed_eq := h.parsed_eq

/-- A run that ends with a call of the model. -/
theorem Concluding.settled (h : Concluding agent g messages made) (parsed : List SpecialistOutput)
    (last : Option (Option TokenUsage)) :
    Settled agent { g with last := last, sent := g.sent ++ [messages], parsed := parsed } made where
  requested := h.requested
  told := by
    show Told agent _ ((g.sent ++ [messages]).getLast?.getD [])
    rw [List.getLast?_concat]
    exact h.told
  noted := ⟨h.noted.made_eq, h.noted.logged_eq⟩
  closing message hmessage := by
    obtain ⟨pre, rfl⟩ := h.closing message hmessage
    exact ⟨pre, by simp⟩

/-- A reply in the loop. -/
theorem Conversing.reply (h : Conversing agent [] g messages made) (message : ToolCallingMessage)
    (last : Option (Option TokenUsage)) :
    Conversing agent message.toolCalls
      { g with last := last, sent := g.sent ++ [messages], replies := g.replies ++ [message] }
      (messages ++ [.ai message]) made where
  waiting := by
    rw [List.map_append]
    exact .asks _ h.waiting
  spoken m hm := by
    rcases List.mem_append.1 hm with hm | hm
    · exact List.mem_append_left _ (h.spoken m hm)
    · obtain rfl := Turn.ai.inj (List.mem_singleton.1 hm)
      exact List.mem_append_right _ (List.mem_singleton_self _)
  pending_eq := by
    rw [heard_snoc]
    rfl
  requested := by
    rw [answers_ai, List.flatMap_append, h.requested, List.append_nil]
    simp
  told := by
    unfold Told
    rw [answers_ai]
    exact h.told
  noted := ⟨h.noted.made_eq, h.noted.logged_eq⟩
  forced_eq := h.forced_eq
  parsed_eq := h.parsed_eq

end Loop

/-- The loop with `n` turns left; after it there is room for the calls of the model that follow. -/
theorem conduct_toolLoop (n : Nat) (h : Conversing agent [] g a.messages a.toolCallsMade) (hsent : g.sent.length + n ≤ 4) :
    Prog.Tries (conduct agent base)
      (fun _ g' a' => Conversing agent [] g' a'.messages a'.toolCallsMade ∧ g'.sent.length ≤ 4)
      (fun g' a' => Settled agent g' a'.toolCallsMade ∧ g'.parsed = []) (toolLoop agent n) g a := by
  induction n generalizing g a with
  | zero => exact .pure ⟨h, hsent⟩
  | succ n ih =>
    unfold toolLoop
    refine .bind (.mono (conduct_invoke true (by omega) h.sound) (fun message g' a' hinvoked => ?_) fun g' a' hraised => ?_)
    · obtain ⟨⟨last, rfl⟩, hmessages, hmade⟩ := hinvoked
      rw [next_invoke_loop]
      have hreply := h.reply message last
      rw [← hmessages, ← hmade] at hreply
      split
      · rename_i hcalls
        rw [hcalls] at hreply
        exact .pure ⟨hreply, by simp; omega⟩
      · have hcalled : Prog.Tries (conduct agent base)
            (fun _ g a => Conversing agent [] g a.messages a.toolCallsMade ∧ g.sent.length + n ≤ 4) (fun _ _ => False)
            (message.toolCalls.forM (callTool agent)) _ a' :=
          .forM_rest
            (I := fun rest g a => Conversing agent rest g a.messages a.toolCallsMade ∧ g.sent.length + n ≤ 4)
            (fun call rest g a hI => (conduct_callTool hI.1).mono
              (fun _ _ _ hcalled => ⟨hcalled.2, hcalled.1 ▸ hI.2⟩) fun _ _ hfalse => hfalse)
            ⟨hreply, by simp; omega⟩
        exact .bind (hcalled.mono (fun _ _ _ hI => ih hI.1 hI.2) fun _ _ hfalse => hfalse.elim)
    · obtain ⟨rfl, rfl⟩ := hraised
      exact ⟨h.concluding.settled g.parsed g.last, h.parsed_eq⟩

theorem conduct_bindTools (h : Conversing agent [] g a.messages a.toolCallsMade) (hstart : g.sent = [] ∧ g.used = []) :
    Prog.Tries (conduct agent base) (fun _ g' a' => g' = g ∧ a' = a)
      (fun g' a' => Settled agent g' a'.toolCallsMade ∧ g'.parsed = []) (bindTools agent) g a := by
  unfold bindTools
  split
  · refine .bind (.send trivial fun bound _ => ?_)
    rw [show (conduct agent base).next g (.bindTools agent.ref) bound = g from next_bindTools ..]
    cases bound with
    | error e =>
      refine .throw ⟨⟨h.used_eq, ?_, h.noted, fun message hmessage => ?_⟩, h.parsed_eq⟩
      · rw [hstart.1]
        unfold Told
        rw [hstart.2]
        rfl
      · exact absurd hmessage (by rw [h.forced_eq]; exact List.not_mem_nil)
    | ok _ => exact .pure ⟨rfl, rfl⟩
  · exact .pure ⟨rfl, rfl⟩

/-- The reply after the loop. -/
theorem Conversing.force {messages : List Turn} {made : List ToolCallLog}
    (h : Conversing agent [] g messages made) (message : ToolCallingMessage) (last : Option (Option TokenUsage)) :
    Concluding agent { g with last := last, sent := g.sent ++ [messages], forced := g.forced ++ [message] }
      (messages ++ [.ai message]) made where
  sound := by
    refine ⟨fun m hm => ?_, fun hforced => ?_⟩
    · rcases List.mem_append.1 hm with hm | hm
      · exact List.mem_append_left _ (h.spoken m hm)
      · obtain rfl := Turn.ai.inj (List.mem_singleton.1 hm)
        exact List.mem_append_right _ (List.mem_append_right _ (List.mem_singleton_self _))
    · have hcalls : message.toolCalls = [] := hforced message (List.mem_append_right _ (List.mem_singleton_self _))
      have hasks := h.waiting.asks (message.toolCalls.map (·.id))
      rw [hcalls] at hasks
      rw [List.map_append]
      simpa [Turn.utterance, hcalls] using hasks
  requested := h.used_eq
  told := by
    unfold Told
    rw [answers_ai]
    exact h.told
  noted := ⟨h.noted.made_eq, h.noted.logged_eq⟩
  closing m hm := by
    obtain rfl : m = message := by simpa [h.forced_eq] using hm
    exact ⟨messages, rfl⟩
  parsed_eq := h.parsed_eq

theorem conduct_finalAnswer (h : Concluding agent g a.messages a.toolCallsMade) (hsent : g.sent.length < 6) :
    Prog.Tries (conduct agent base)
      (fun _ g' a' => Settled agent g' a'.toolCallsMade ∧ g'.parsed ≠ [])
      (fun g' a' => Settled agent g' a'.toolCallsMade ∧ g'.parsed = []) (finalAnswer agent) g a := by
  unfold finalAnswer
  refine .bind (.get (.bind (.send ⟨hsent, h.sound⟩ fun final _ => ?_)))
  cases final with
  | error e =>
    rw [show (conduct agent base).next g (.structured agent.ref a.messages) (.error e) = _ from next_structured_error ..]
    exact .throw ⟨h.settled g.parsed g.last, h.parsed_eq⟩
  | ok final =>
    obtain ⟨raw, output⟩ := final
    rw [show (conduct agent base).next g (.structured agent.ref a.messages) (.ok (raw, output)) = _ from next_structured_ok ..]
    refine .bind (.send rfl fun r _ => ?_)
    rw [show (conduct agent base).next _ _ r = _ from next_write_usage ..]
    refine .bind (.mono (conduct_accumulate rfl) (fun _ g' a' hkept => ?_) fun _ _ hfalse => hfalse.elim)
    obtain ⟨rfl, -, hmade⟩ := hkept
    refine .bind (.get (.bind (.send rfl fun r' _ => ?_)))
    rw [show (conduct agent base).next _ _ r' = _ from next_write_usage ..]
    have hsettled := fun last => h.settled (g.parsed ++ output.toList) last
    rw [← hmade] at hsettled
    cases output with
    | none => exact .throw ⟨hsettled _, by simp [h.parsed_eq]⟩
    | some output =>
      refine .bind (.send rfl fun r'' _ => .pure ?_)
      rw [show (conduct agent base).next _ _ r'' = _ from next_write_responseText ..]
      exact ⟨hsettled _, by simp⟩

theorem conduct_body (h : Conversing agent [] g a.messages a.toolCallsMade) (hsent : g.sent = []) (hused : g.used = []) :
    Prog.Tries (conduct agent base)
      (fun _ g' a' => Settled agent g' a'.toolCallsMade ∧ g'.parsed ≠ [])
      (fun g' a' => Settled agent g' a'.toolCallsMade ∧ g'.parsed = []) (body agent) g a := by
  unfold body
  refine .bind (.mono (conduct_bindTools h ⟨hsent, hused⟩) (fun _ _ _ hbound => ?_) fun _ _ hraised => hraised)
  obtain ⟨rfl, rfl⟩ := hbound
  refine .bind (.mono (conduct_toolLoop _ h (by rw [hsent]; exact le_rfl)) (fun settled g' a' hlooped => ?_)
    fun _ _ hraised => hraised)
  obtain ⟨hconversing, hroom⟩ := hlooped
  split
  · exact conduct_finalAnswer hconversing.concluding (by omega)
  · -- one more turn, which asks for an answer
    have hasked : Conversing agent [] g' (a'.messages ++ [.human answerNow]) a'.toolCallsMade :=
      hconversing.human answerNow
    refine .bind (.modify _ (.bind ?_))
    refine .mono (conduct_invoke false (by omega) hasked.sound) (fun message g'' a'' hinvoked => ?_)
      fun g'' a'' hraised => ?_
    · obtain ⟨⟨last, rfl⟩, hmessages, hmade⟩ := hinvoked
      rw [next_invoke_forced]
      have hforced := hasked.force message last
      refine conduct_finalAnswer (hmessages ▸ hmade ▸ hforced) ?_
      simp
      omega
    · obtain ⟨rfl, rfl⟩ := hraised
      exact ⟨hasked.concluding.settled g'.parsed g'.last, hasked.parsed_eq⟩

/-- How the result of a run goes with its conduct. -/
structure Returns (agent : SpecialistAgent) (subtask : SubTask) (g : Conduct) (result : SubtaskResult) : Prop where
  settled : Settled agent g result.toolCalls
  subtaskId_eq : result.subtaskId = subtask.id
  specialist_eq : result.specialist = agent.specialistType
  success_iff : result.success = true ↔ g.parsed ≠ []

theorem follows_conduct (agent : SpecialistAgent) (base : List ToolCallLog) (subtask : SubTask)
    (context : Dict String SubtaskResult) (feedback : Option String) :
    (run agent subtask context feedback).Follows (conduct agent base) (Returns agent subtask) {} := by
  unfold run
  refine .perform rfl fun r _ => ?_
  rw [show (conduct agent base).next {} _ r = _ from next_write_prompt ..]
  refine .bind (conduct_body (conversing_start agent _ _) rfl rfl) fun g' out hout => ?_
  obtain ⟨result, a⟩ := out
  cases result with
  | ok output => exact ⟨hout.1, rfl, rfl, by simpa using hout.2⟩
  | error e =>
    refine .perform rfl fun r _ => ?_
    rw [show (conduct agent base).next _ _ r = _ from next_write_usage ..]
    exact ⟨⟨hout.1.requested, hout.1.told, ⟨hout.1.noted.made_eq, hout.1.noted.logged_eq⟩, hout.1.closing⟩, rfl, rfl,
      by simp [hout.2]⟩

end SpecialistAgent

end AgentOrchestrator
