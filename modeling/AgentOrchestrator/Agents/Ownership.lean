import AgentOrchestrator.Agents.Usage

/-!
# What a branch has done itself

An `Account` has what a branch has itself written to its agent object, logged and received.  A branch that finds in the
object and in the tail of the call log exactly what its account says ends with a result and an object that are its own
throughout (`Account.follows_run`).
-/

namespace AgentOrchestrator.SpecialistAgent

/-- What a branch has itself written, received and logged; `log` is the call log as it is if nobody else has logged since
the branch has last read it, and `calling` says that it has used a tool since. -/
structure Account where
  object : LastCall := {}
  reported : TokenUsage := 0
  answer : Option String := none
  logged : List ToolCallLog := []
  log : Option (List ToolCallLog) := none
  calling : Bool := false

/-- The account after a command. -/
def Account.next (g : Account) : (c : Command) → Response c → Account
  | .newAgent _ _, r =>
    match r with
    | .ok _ => { g with object := {} }
    | .error _ => g
  | .invoke agent withTools messages, r =>
    { g with reported := g.reported + SpecialistAgent.reported (.invoke agent withTools messages) r }
  | .structured agent messages, r =>
    { g with
      reported := g.reported + SpecialistAgent.reported (.structured agent messages) r
      answer :=
        match r with
        | .ok (_, parsed) => parsed.map (·.output)
        | .error _ => none }
  | .useTool _ _ _, _ => { g with calling := true }
  | .readLog _, log => { g with log := some log, calling := false }
  | .appendLog _ log, _ => { g with logged := g.logged ++ [log], log := g.log.map (· ++ [log]) }
  | .write _ edit, _ => { g with object := g.object.set edit }
  | .now, _ => g
  | .awaitJob _, _ => g
  | .newRegistry _, _ => g
  | .bindTools _, _ => g
  | .read _ _, _ => g

/-- In process, a branch uses one agent object and its registry, and expects to find in the attributes what it has itself
written there, and after the call of a tool a call log to which nobody else has added. -/
def ownership (agent : AgentRef) : Protocol Command Response Account where
  next := Account.next
  guarantee _ c :=
    match c with
    | .read ref _ => ref = agent
    | .write ref _ => ref = agent
    | .readLog registry => registry = agent.registry
    | .appendLog registry _ => registry = agent.registry
    | .newAgent _ _ => False
    | .newRegistry _ => False
    | _ => True
  rely g c r :=
    match c, r with
    | .read _ name, value => value = g.object.get name
    | .readLog _, log => g.calling = true → ∀ own, g.log = some own → log = own
    | _, _ => True

namespace Account

variable {L : Type} {g : Account} {a : Attempt} {prompt : String} {agent : SpecialistAgent}

/-- What holds between the calls of a run with this prompt. -/
structure Kept (prompt : String) (g : Account) (a : Attempt) : Prop where
  prompt : g.object.prompt = some prompt
  response : g.object.responseText = none
  answer : g.answer = none
  usage : a.totalUsage = g.reported
  logged : a.toolCallsMade = g.logged

theorem tries_readUsage {l : L} (agent : AgentRef) :
    Prog.Tries (ownership agent) (fun r g' l' => r = g.object.usage ∧ g' = g ∧ l' = l) (fun _ _ => False)
      (readUsage agent : Prog.Body Command Response L String (Option TokenUsage)) g l :=
  tries_readUsage_of_found rfl (fun _ => rfl) fun _ hfound => hfound

/-- What the object holds is added to what has been counted. -/
theorem tries_accumulate (agent : AgentRef) :
    Prog.Tries (ownership agent)
      (fun _ g' a' => g' = g ∧ a' = { a with totalUsage := a.totalUsage + g.object.usage.getD 0 }) (fun _ _ => False)
      (accumulate agent) g a := by
  unfold accumulate
  refine .bind (.mono (tries_readUsage agent) (fun r g' a' hr => ?_) fun _ _ h => h)
  obtain ⟨rfl, rfl, rfl⟩ := hr
  cases g'.object.usage with
  | none => exact .pure ⟨rfl, by simp⟩
  | some u => exact .modify _ ⟨rfl, rfl⟩

/-- A change of what the object holds as its usage. -/
theorem Kept.written (h : Kept prompt g a) (value : Option TokenUsage) :
    Kept prompt { g with object := g.object.set (.usage value) } a :=
  ⟨h.prompt, h.response, h.answer, h.usage, h.logged⟩

theorem Kept.append (h : Kept prompt g a) (turn : Turn) :
    Kept prompt g { a with messages := a.messages ++ [turn] } :=
  ⟨h.prompt, h.response, h.answer, h.usage, h.logged⟩

/-- A call of the model, with its reply recorded and counted. -/
theorem tries_invoke (withTools : Bool) (h : Kept prompt g a) :
    Prog.Tries (ownership agent.ref) (fun _ => Kept prompt) (Kept prompt) (invoke agent withTools) g a := by
  unfold invoke
  refine .bind (.get (.bind (.send trivial fun reply _ => ?_)))
  cases reply with
  | error e => exact .throw ⟨h.prompt, h.response, h.answer, h.usage.trans (add_zero _).symm, h.logged⟩
  | ok message =>
    refine .bind (.send rfl fun _ _ => ?_)
    refine .bind (.mono (tries_accumulate _) (fun _ g' a' hsum => ?_) fun _ _ hfalse => hfalse.elim)
    obtain ⟨rfl, rfl⟩ := hsum
    have hcount : a.totalUsage + message.tokenUsage.getD 0 = g.reported + message.tokenUsage.getD 0 :=
      congrArg (· + _) h.usage
    exact .bind (.modify _ (.pure ⟨h.prompt, h.response, h.answer, hcount, h.logged⟩))

/-- In the call of a tool, what has been logged since the log was read is not yet among the tool calls made. -/
structure Calling (prompt : String) (before : List ToolCallLog) (g : Account) (a : Attempt) : Prop where
  prompt : g.object.prompt = some prompt
  response : g.object.responseText = none
  answer : g.answer = none
  usage : a.totalUsage = g.reported
  calling : g.calling = true
  logged : ∃ new, g.log = some (before ++ new) ∧ g.logged = a.toolCallsMade ++ new

theorem tries_useTool {before : List ToolCallLog} (call : ToolCall) (h : Kept prompt g a) (hread : g.log = some before) :
    Prog.Tries (ownership agent.ref) (fun _ => Calling prompt before) (fun _ _ => False) (useTool agent call) g a := by
  unfold useTool
  refine .bind (.send trivial fun used _ => ?_)
  cases used with
  | error e =>
    exact .pure ⟨h.prompt, h.response, h.answer, h.usage, rfl, [], by rw [List.append_nil, ← hread]; rfl,
      by rw [List.append_nil, h.logged]; rfl⟩
  | ok log =>
    have hlog : g.log.map (· ++ [log]) = some (before ++ [log]) := by rw [hread]; rfl
    have hcalling : Calling prompt before { g with
        logged := g.logged ++ [log]
        log := g.log.map (· ++ [log])
        calling := true } a :=
      ⟨h.prompt, h.response, h.answer, h.usage, rfl, [log], hlog, by rw [h.logged]⟩
    refine .bind (.send rfl fun _ _ => ?_)
    by_cases hsuccess : log.success = true
    · rw [if_pos hsuccess]
      exact .pure hcalling
    · rw [if_neg hsuccess]
      exact .pure hcalling

/-- What is taken from the log is what has been logged in the call. -/
theorem tries_callTool (call : ToolCall) (h : Kept prompt g a) :
    Prog.Tries (ownership agent.ref) (fun _ => Kept prompt) (fun _ _ => False) (callTool agent call) g a := by
  unfold callTool
  refine .bind (.send rfl fun before _ => ?_)
  have hkept : Kept prompt ((ownership agent.ref).next g (.readLog agent.ref.registry) before) a :=
    ⟨h.prompt, h.response, h.answer, h.usage, h.logged⟩
  by_cases hname : call.name ∈ agent.lcTools
  · rw [if_pos hname]
    refine .bind (.mono (tries_useTool call hkept rfl) (fun result g' a' hcalled => ?_) fun _ _ hfalse => hfalse)
    obtain ⟨hprompt, hresponse, hanswer, husage, hcalling, new, hlog, hlogged⟩ := hcalled
    refine .bind (.send rfl fun after hafter => ?_)
    have htail : List.drop (List.length before) after = new := by
      rw [hafter hcalling _ hlog]
      exact List.drop_left
    rw [htail]
    exact .bind (.modify _ (.modify _ ⟨hprompt, hresponse, hanswer, husage, hlogged.symm⟩))
  · rw [if_neg hname]
    exact .modify _ (hkept.append _)

theorem tries_toolLoop (n : Nat) (h : Kept prompt g a) :
    Prog.Tries (ownership agent.ref) (fun _ => Kept prompt) (Kept prompt) (toolLoop agent n) g a := by
  induction n generalizing g a with
  | zero => exact .pure h
  | succ n ih =>
    unfold toolLoop
    refine .bind (.mono (tries_invoke true h) (fun message g' a' hkept => ?_) fun _ _ hraised => hraised)
    by_cases hcalls : message.toolCalls = []
    · rw [if_pos hcalls]
      exact .pure hkept
    · rw [if_neg hcalls]
      have hcall : ∀ call ∈ message.toolCalls, ∀ g a, Kept prompt g a →
          Prog.Tries (ownership agent.ref) (fun _ => Kept prompt) (Kept prompt) (callTool agent call) g a :=
        fun call _ _ _ hk => (tries_callTool call hk).mono (fun _ _ _ h => h) fun _ _ hfalse => hfalse.elim
      exact .bind (.mono (.forM hcall hkept) (fun _ _ _ => ih) fun _ _ hraised => hraised)

theorem tries_bindTools (h : Kept prompt g a) :
    Prog.Tries (ownership agent.ref) (fun _ => Kept prompt) (Kept prompt) (bindTools agent) g a := by
  unfold bindTools
  by_cases htools : agent.lcTools ≠ []
  · rw [if_pos htools]
    refine .bind (.send trivial fun bound _ => ?_)
    cases bound with
    | error e => exact .throw h
    | ok _ => exact .pure h
  · rw [if_neg htools]
    exact .pure h

/-- After a run, the object has what is to be reported of it, and the result what has been logged. -/
structure Ended (prompt : String) (g : Account) (toolCalls : List ToolCallLog) : Prop where
  object : g.object = ⟨some g.reported, some prompt, g.answer⟩
  logged : toolCalls = g.logged

theorem Kept.ended (h : Kept prompt g a) :
    Ended prompt { g with object := g.object.set (.usage (some a.totalUsage)) } a.toolCallsMade where
  object := by
    show LastCall.mk (some a.totalUsage) g.object.prompt g.object.responseText = _
    rw [h.usage, h.prompt, h.response, h.answer]
  logged := h.logged

theorem tries_finalAnswer (h : Kept prompt g a) :
    Prog.Tries (ownership agent.ref) (fun _ g a => Ended prompt g a.toolCallsMade) (Kept prompt) (finalAnswer agent) g a := by
  unfold finalAnswer
  refine .bind (.get (.bind (.send trivial fun final _ => ?_)))
  cases final with
  | error e => exact .throw ⟨h.prompt, h.response, rfl, h.usage.trans (add_zero _).symm, h.logged⟩
  | ok final =>
    obtain ⟨raw, parsed⟩ := final
    refine .bind (.send rfl fun _ _ => ?_)
    refine .bind (.mono (tries_accumulate _) (fun _ g' a' hsum => ?_) fun _ _ hfalse => hfalse.elim)
    obtain ⟨rfl, rfl⟩ := hsum
    have hcount : a.totalUsage + raw.tokenUsage.getD 0 = g.reported + raw.tokenUsage.getD 0 :=
      congrArg (· + _) h.usage
    refine .bind (.get (.bind (.send rfl fun _ _ => ?_)))
    cases parsed with
    | none => exact .throw ⟨h.prompt, h.response, rfl, hcount, h.logged⟩
    | some output =>
      refine .bind (.send rfl fun _ _ => .pure ⟨?_, h.logged⟩)
      show LastCall.mk (some (a.totalUsage + raw.tokenUsage.getD 0)) g.object.prompt (some output.output) = _
      rw [hcount, h.prompt]
      rfl

theorem tries_body (h : Kept prompt g a) :
    Prog.Tries (ownership agent.ref) (fun _ g a => Ended prompt g a.toolCallsMade) (Kept prompt) (body agent) g a := by
  unfold body
  refine .bind (.mono (tries_bindTools h) (fun _ _ _ hkept => ?_) fun _ _ hraised => hraised)
  refine .bind (.mono (tries_toolLoop _ hkept) (fun settled _ _ hkept => ?_) fun _ _ hraised => hraised)
  by_cases hsettled : settled = true
  · rw [if_pos hsettled]
    exact tries_finalAnswer hkept
  · rw [if_neg hsettled]
    refine .bind (.modify _ (.bind ?_))
    exact .mono (tries_invoke false (hkept.append _)) (fun _ _ _ => tries_finalAnswer) fun _ _ hraised => hraised

/-- A run ends with what its own account says, in the result and in the object. -/
theorem follows_run (agent : SpecialistAgent) (subtask : SubTask) (context : Dict String SubtaskResult)
    (feedback : Option String) :
    (run agent subtask context feedback).Follows (ownership agent.ref)
      (fun g result => Ended (userPrompt subtask context feedback) g result.toolCalls) {} := by
  have hstart : Kept (userPrompt subtask context feedback)
      { object := { prompt := some (userPrompt subtask context feedback) } }
      { messages := [.system (systemPrompts agent.specialistType), .human (userPrompt subtask context feedback)] } :=
    ⟨rfl, rfl, rfl, rfl, rfl⟩
  unfold run
  refine .perform rfl fun _ _ => .bind (tries_body hstart) fun g out hout => ?_
  obtain ⟨result, a⟩ := out
  cases result with
  | ok output => exact hout
  | error e => exact .perform rfl fun _ _ => Kept.ended hout

end Account

end AgentOrchestrator.SpecialistAgent
