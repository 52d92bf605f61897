import AgentOrchestrator.Agents.Supervisor
import AgentOrchestrator.Graph.Worker

/-!
# Traced runs of the graph

The graph with what `Graph.Run` leaves out: the agent objects, the branches of a batch with each of their commands a
step of its own, and the channel `trace_events`.  Leaving these out again, a step is a step of the graph or none
(`exec_of_traced`).
-/

namespace AgentOrchestrator

open Fallible
open SpecialistAgent (Workshop Command Response Executes readUsage)

/-! ### Events -/

/-- The usage of an agent in one execution of a node. -/
structure UsageEntry where
  node : String
  model : String
  inputTokens : Nat
  outputTokens : Nat
deriving DecidableEq

inductive EventStatus where
  | success
  | failure
  | warning
  | escalated
deriving DecidableEq

inductive ExecutedVia where
  | celery
  | inProcess
deriving DecidableEq

/-- The attributes that the nodes put into their events. -/
inductive NodeAttributes where
  | none
  | intake (memoryHits : Nat)
  | planTask (confidence : Score) (subtaskCount : Nat) (reasoning : String) (sensitive : Bool)
      (prompt response : Option String)
  | runSpecialist (subtaskId : String) (output error : Option String) (retriedWithFeedback : Bool)
      (toolCalls : List ToolCallLog) (prompt response : Option String) (executedVia : ExecutedVia)
  | review (score : Score) (approved : Bool) (feedback : String) (subtasksToRedo : List String)
      (requiresHumanReview : Bool) (prompt response : Option String)
  | applyReviewFeedback (redoIds : List String)
  | notifyHuman (reason : String)
  | synthesize (finalOutputPreview : String) (prompt response : Option String)
  | humanEscalation (level : EscalationLevel) (reason : String) (source : EscalationSource) (decision : DecisionAction)
  | applyHumanDecision (action : DecisionAction) (source : EscalationSource) (feedback output : Option String)
deriving DecidableEq

/-- `attributes.get("tool_calls", [])`. -/
def NodeAttributes.toolCalls : NodeAttributes → List ToolCallLog
  | .runSpecialist _ _ _ _ toolCalls _ _ _ => toolCalls
  | _ => []

/-- An entry of `trace_events`. -/
structure TraceEvent where
  node : String
  agent : String
  status : EventStatus
  startedAt : ℚ
  endedAt : ℚ
  attributes : NodeAttributes := .none
  usage : List UsageEntry := []
deriving DecidableEq

def UsageEntry.tokens (u : UsageEntry) : TokenUsage := ⟨u.inputTokens, u.outputTokens⟩

/-- The tokens of all usage entries of the events. -/
def tokensOf (events : List TraceEvent) : TokenUsage :=
  (events.map fun event => (event.usage.map UsageEntry.tokens).sum).sum

theorem tokensOf_append (events events' : List TraceEvent) :
    tokensOf (events ++ events') = tokensOf events + tokensOf events' := by
  simp [tokensOf]

theorem tokensOf_singleton (event : TraceEvent) : tokensOf [event] = (event.usage.map UsageEntry.tokens).sum := by
  simp [tokensOf]

/-- `_usage_entry`. -/
def usageEntry (node : String) (agent : BaseAgent) : List UsageEntry :=
  match agent.lastUsage with
  | none => []
  | some u => [{ node := node, model := agent.modelName, inputTokens := u.inputTokens, outputTokens := u.outputTokens }]

/-- The tokens that a reply reports, none if it reports no usage. -/
def AiMessage.tokens (message : AiMessage) : TokenUsage := message.tokenUsage.getD 0

theorem sum_usageEntry (node : String) (agent : BaseAgent) :
    ((usageEntry node agent).map UsageEntry.tokens).sum = agent.lastUsage.getD 0 := by
  unfold usageEntry
  split
  · rename_i h
    rw [h]
    rfl
  · rename_i u h
    rw [h]
    simp [UsageEntry.tokens]

/-! ### Branches -/

/-- The graph and what it is built with. -/
structure App where
  settings : Settings
  useCelery : Bool
  specialistModels : SpecialistType → String
  specialistTools : SpecialistType → List String
  dumpPlan : ExecutionPlan → String
  dumpReview : ReviewResult → String
  dumpMemory : ExtractedMemory → String

/-- The specialist of a type, as the object `ref`. -/
def App.specialist (app : App) (ref : AgentRef) (specialist : SpecialistType) : SpecialistAgent where
  ref := ref
  specialistType := specialist
  modelName := app.specialistModels specialist
  lcTools := app.specialistTools specialist

/-- What a branch of a batch returns. -/
structure Branch where
  run : SpecialistRun
  update : Update
  event : TraceEvent

def nodeName (subtaskId : String) : String := "run_specialist:" ++ subtaskId

/-- `run_specialist` after the specialist has returned. -/
def endBranch (p : SendPayload) (subtask : SubTask) (via : ExecutedVia) (start : ℚ) (result : SubtaskResult)
    (prompt response : Option String) (usage : List UsageEntry) :
    SpecialistAgent.Program (Except NodeError Branch) := do
  let ended : ℚ ← Prog.perform Command.now
  return ((runSpecialist result p).mapError .lookup).map fun branch =>
    { run := branch.1
      update := branch.2
      event := {
        node := nodeName p.subtaskId
        agent := subtask.specialist.value
        status := if result.success then .success else .failure
        startedAt := start
        endedAt := ended
        attributes := .runSpecialist p.subtaskId result.output result.error (p.subtaskFeedback.get? p.subtaskId).isSome
          result.toolCalls prompt response via
        usage := usage } }

/-- The entries for the usage of a specialist. -/
def specialistUsage (p : SendPayload) (model : String) (usage : Option TokenUsage) : List UsageEntry :=
  usage.toList.map fun u =>
    { node := nodeName p.subtaskId, model := model, inputTokens := u.inputTokens, outputTokens := u.outputTokens }

/-- The node `run_specialist`, as the branch `job` of a batch. -/
def branch (app : App) (job : Nat) (p : SendPayload) : SpecialistAgent.Program (Except NodeError Branch) := do
  let start : ℚ ← Prog.perform Command.now
  match p.plan.subtasks.find? fun st => st.id = p.subtaskId with
  | none => return .error (.lookup .stopIteration)
  | some subtask =>
    let feedback := p.subtaskFeedback.get? p.subtaskId
    if app.useCelery then
      let agent := app.specialist (.worker job) subtask.specialist
      let job ← runSpecialistTask agent subtask p.completed feedback
      let wait : SpecialistAgent.Wait ← Prog.perform (Command.awaitJob agent.ref)
      match (JobOutcome.of wait job).get with
      | .error e => return .error e
      | .ok payload =>
        endBranch p subtask .celery start payload.subtaskResult payload.prompt payload.response
          (specialistUsage p payload.model payload.usage)
    else
      let agent := app.specialist (.inProcess subtask.specialist) subtask.specialist
      let result ← SpecialistAgent.run agent subtask p.completed feedback
      let prompt : Option String ← Prog.perform (Command.read agent.ref .prompt)
      let response : Option String ← Prog.perform (Command.read agent.ref .responseText)
      let (usage, _) ← (readUsage agent.ref).attempt ()
      match usage with
      | .error message => return .error (.attribute message)
      | .ok usage =>
        endBranch p subtask .inProcess start result prompt response
          (specialistUsage p agent.modelName usage)

/-! ### The state of a traced run -/

abbrev BranchMove := Move Command Response

/-- A batch under way, with the moves its branches have made. -/
structure Batch where
  moves : List BranchMove
  pool : Pool Command Response Workshop (Except NodeError Branch)

/-- `extractor` is `none` without a long-term memory or an extractor. -/
structure Traced where
  config : Config
  supervisor : BaseAgent
  reviewer : BaseAgent
  extractor : Option BaseAgent
  workshop : Workshop
  events : List TraceEvent := []
  batch : Option Batch := none

/-- What the model, the human or the environment answers in the execution of a node. -/
inductive NodeReply where
  | intake (uuid : String) (memories : Option (List MemoryRecord))
  | plan (raw : AiMessage) (plan : ExecutionPlan)
  | review (raw : AiMessage) (result : ReviewResult)
  | synthesis (raw : AiMessage)
  | memory (id : String) (now : ℚ) (raw : AiMessage) (extracted : ExtractedMemory)
  | decision (decision : HumanDecision)
  | none

def reviewPrompt (task : String) (results : Dict String SubtaskResult) : String :=
  let outputs := "\n\n".intercalate (results.items.map fun e =>
    "[" ++ e.1 ++ "] (" ++ e.2.specialist.value ++ ", success=" ++ (if e.2.success then "True" else "False") ++ "): " ++
      ((e.2.output.filter fun o => o ≠ "").or e.2.error).getD "None")
  "Original task:\n" ++ task ++ "\n\nSubtask outputs:\n" ++ outputs

def extractPrompt (task : String) (plan : ExecutionPlan) (results : Dict String SubtaskResult) (finalOutput : String) :
    String :=
  let outputs := "\n\n".intercalate (results.items.map fun e =>
    "[" ++ e.1 ++ "] (" ++ e.2.specialist.value ++ "): " ++ e.2.output.getD "None")
  "Task: " ++ task ++ "\n\nPlan reasoning: " ++ plan.reasoning ++ "\n\n" ++ "Subtask outputs:\n" ++ outputs ++
    "\n\nFinal delivered output:\n" ++ finalOutput

/-- The execution of a node other than a batch, between the times `start` and `ended`: its event, the tokens of the
replies it has got, and the state after it. -/
def execute (app : App) (c : Traced) (start ended : ℚ) (r : NodeReply) : Except RunError (Event × TokenUsage × Traced) :=
  let s := c.config.state
  match c.config.next, r with
  | .node .intake, .intake uuid memories => do
    let (e, config) ← step app.settings c.config (.intake uuid memories)
    let event : TraceEvent := {
      node := "intake"
      agent := "system"
      status := .success
      startedAt := start
      endedAt := ended
      attributes := .intake (memories.getD []).length }
    return (e, 0, { c with config := config, events := c.events ++ [event] })
  | .node .planTask, .plan raw plan => do
    let (e, config) ← step app.settings c.config (.plan plan)
    let supervisor := (SupervisorAgent.createPlan app.dumpPlan (.ok (raw, some plan)) s.task (s.memoryContext.getD "")
      c.supervisor).2.2
    let event : TraceEvent := {
      node := "plan_task"
      agent := "supervisor"
      status := .success
      startedAt := start
      endedAt := ended
      attributes := .planTask plan.confidence plan.subtasks.length plan.reasoning (plan.subtasks.any (·.sensitive))
        supervisor.lastPrompt supervisor.lastResponseText
      usage := usageEntry "plan_task" supervisor }
    return (e, raw.tokens, { c with config := config, supervisor := supervisor, events := c.events ++ [event] })
  | .node .routeBatch, .none => do
    let (e, config) ← step app.settings c.config .none
    return (e, 0, { c with config := config })
  | .node .review, .review raw result => do
    let (e, config) ← step app.settings c.config (.review result)
    let reviewer := (c.reviewer.structured app.dumpReview (.ok (raw, some result)) (reviewPrompt s.task s.completed)).2.2
    let event : TraceEvent := {
      node := "review"
      agent := "reviewer"
      status := if result.approved then .success else .warning
      startedAt := start
      endedAt := ended
      attributes := .review result.score result.approved result.feedback result.subtasksToRedo
        result.requiresHumanReview reviewer.lastPrompt reviewer.lastResponseText
      usage := usageEntry "review" reviewer }
    return (e, raw.tokens, { c with config := config, reviewer := reviewer, events := c.events ++ [event] })
  | .node .applyReviewFeedback, .none => do
    let (e, config) ← step app.settings c.config .none
    let event : TraceEvent := {
      node := "apply_review_feedback"
      agent := "system"
      status := .warning
      startedAt := start
      endedAt := ended
      attributes := .applyReviewFeedback ((s.review.map (·.subtasksToRedo)).getD []) }
    return (e, 0, { c with config := config, events := c.events ++ [event] })
  | .node .notifyHuman, .none => do
    let (e, config) ← step app.settings c.config .none
    let event : TraceEvent := {
      node := "notify_human"
      agent := "system"
      status := .warning
      startedAt := start
      endedAt := ended
      attributes := .notifyHuman ((config.state.escalation.map (·.reason)).getD "") }
    return (e, 0, { c with config := config, events := c.events ++ [event] })
  | .node .synthesize, .synthesis raw => do
    let (e, config) ← step app.settings c.config (.synthesis raw.content)
    let supervisor := (SupervisorAgent.synthesize (.ok raw) s.task s.completed c.supervisor).2.2
    let event : TraceEvent := {
      node := "synthesize"
      agent := "supervisor"
      status := .success
      startedAt := start
      endedAt := ended
      attributes := .synthesize (raw.content.take 200).toString supervisor.lastPrompt supervisor.lastResponseText
      usage := usageEntry "synthesize" supervisor }
    return (e, raw.tokens, { c with config := config, supervisor := supervisor, events := c.events ++ [event] })
  | .node .deliver, r => do
    let event : TraceEvent := {
      node := "deliver"
      agent := "system"
      status := .success
      startedAt := start
      endedAt := ended }
    match c.extractor, r with
    | some extractor, .memory id now raw extracted => do
      let plan ← require "plan" s.plan
      let (e, config) ← step app.settings c.config (.memory (some (id, now, extracted)))
      -- the event has no usage, whatever the extractor's model has used
      let extractor := (extractor.structured app.dumpMemory (.ok (raw, some extracted))
        (extractPrompt s.task plan s.completed (s.finalOutput.getD ""))).2.2
      return (e, raw.tokens, { c with config := config, extractor := some extractor, events := c.events ++ [event] })
    | none, .none => do
      let (e, config) ← step app.settings c.config (.memory none)
      return (e, 0, { c with config := config, events := c.events ++ [event] })
    | _, _ => .error .unfit
  | .node .rejectTask, .none => do
    let (e, config) ← step app.settings c.config .none
    let event : TraceEvent := {
      node := "reject_task"
      agent := "system"
      status := .failure
      startedAt := start
      endedAt := ended }
    return (e, 0, { c with config := config, events := c.events ++ [event] })
  | .node .humanEscalation, .decision decision => do
    let (e, config) ← step app.settings c.config (.decision decision)
    let (escalation, source) ← escalate app.settings s
    let event : TraceEvent := {
      node := "human_escalation"
      agent := "human"
      status := .escalated
      startedAt := start
      endedAt := ended
      attributes := .humanEscalation escalation.level escalation.reason source decision.action }
    return (e, 0, { c with config := config, events := c.events ++ [event] })
  | .node .applyHumanDecision, .none => do
    let (e, config) ← step app.settings c.config .none
    let decision ← require "human_decision" s.humanDecision
    let source ← require "escalation_source" s.escalationSource
    let event : TraceEvent := {
      node := "apply_human_decision"
      agent := "human"
      status := .success
      startedAt := start
      endedAt := ended
      attributes := .applyHumanDecision decision.action source decision.feedback decision.output }
    return (e, 0, { c with config := config, events := c.events ++ [event] })
  | _, _ => .error .unfit

/-! ### Steps -/

/-- What a step of a traced run leaves; `tokens` are those of the replies got in the execution of a node. -/
inductive TraceLabel where
  | node (e : Event) (tokens : TokenUsage)
  | dispatched
  | move (m : BranchMove)
  | gathered (runs : List SpecialistRun)

/-- The branches of a batch, before their first commands. -/
def dispatch (app : App) (c : Traced) (batch : List SendPayload) : Batch where
  moves := []
  pool := { store := c.workshop, progs := batch.mapIdx (branch app) }

/-- The state after a batch whose branches have all returned. -/
def gather (c : Traced) (b : Batch) (branches : List Branch) : Traced :=
  { c with
    config := ⟨applyAll c.config.state (branches.map (·.update)), .node .routeBatch⟩
    workshop := b.pool.store
    events := c.events ++ branches.map (·.event)
    batch := none }

/-- The steps of a traced run.  The branches of a batch may issue their commands in any order; the batch is over when
all of them have returned. -/
inductive TracedStep (app : App) : Traced → TraceLabel → Traced → Prop
  | node {c c' : Traced} {start ended : ℚ} {r : NodeReply} {e : Event} {tokens : TokenUsage} (hb : c.batch = none)
      (h : execute app c start ended r = .ok (e, tokens, c')) : TracedStep app c (.node e tokens) c'
  | dispatch {c : Traced} {batch : List SendPayload} (hb : c.batch = none) (hn : c.config.next = .send batch) :
      TracedStep app c .dispatched { c with batch := some (dispatch app c batch) }
  | move {c : Traced} {b : Batch} {m : BranchMove} {pool : Pool Command Response Workshop (Except NodeError Branch)}
      (hb : c.batch = some b) (hm : Pool.Step Executes b.pool m pool) :
      TracedStep app c (.move m) { c with batch := some { moves := b.moves ++ [m], pool := pool } }
  | gather {c : Traced} {b : Batch} {branches : List Branch} (hb : c.batch = some b)
      (hr : b.pool.progs = branches.map fun branch => .ret (.ok branch)) :
      TracedStep app c (.gathered (branches.map (·.run))) (gather c b branches)

/-! ### What the execution of a node does -/

/-- The event is an execution of `deliver`. -/
def Event.isDelivery : Event → Bool
  | .deliver _ => true
  | _ => false

/-- The decision with which the event has resumed the graph. -/
def Event.decision : Event → Option HumanDecision
  | .humanEscalation _ _ decision => some decision
  | _ => none

/-- The events of `human_escalation`. -/
def escalations (events : List TraceEvent) : List TraceEvent :=
  events.filter fun event => event.node = "human_escalation"

/-- The agents of the events of the nodes, those of the branches of a batch left out. -/
def nodeAgents : List String := ["system", "supervisor", "reviewer", "human"]

/-- A node runs as in the graph and appends its events: the tokens of the replies are theirs, but for `deliver`. -/
structure Executed (app : App) (c : Traced) (e : Event) (tokens : TokenUsage) (c' : Traced) (new : List TraceEvent) :
    Prop where
  step : Step app.settings c.config e c'.config
  events : c'.events = c.events ++ new
  tokens : tokensOf new = if e.isDelivery then 0 else tokens
  escalations : (escalations new).length = e.decision.toList.length
  agents : ∀ event ∈ new, event.agent ∈ nodeAgents
  workshop : c'.workshop = c.workshop
  batch : c'.batch = c.batch

section

variable {app : App} {c c' : Traced} {e : Event} {tokens : TokenUsage}

private theorem returned_inj {α β δ : Type} {a a' : α} {b b' : β} {d d' : δ}
    (h : (pure (a, b, d) : Except RunError (α × β × δ)) = .ok (a', b', d')) : a = a' ∧ b = b' ∧ d = d' := by
  obtain ⟨ha, hrest⟩ := Prod.mk.inj (Except.ok.inj h)
  exact ⟨ha, Prod.mk.inj hrest⟩

/-- A node with one event. -/
private theorem executed_one {config : Config} {r : Reply} (event : TraceEvent)
    (hs : step app.settings c.config r = .ok (e, config)) (hconfig : c'.config = config)
    (hevents : c'.events = c.events ++ [event])
    (htokens : (event.usage.map UsageEntry.tokens).sum = if e.isDelivery then 0 else tokens)
    (hesc : (escalations [event]).length = e.decision.toList.length) (hagent : event.agent ∈ nodeAgents)
    (hworkshop : c'.workshop = c.workshop) (hbatch : c'.batch = c.batch) : Executed app c e tokens c' [event] where
  step := ⟨r, hconfig ▸ hs⟩
  events := hevents
  tokens := (tokensOf_singleton event).trans htokens
  escalations := hesc
  agents := by simpa using hagent
  workshop := hworkshop
  batch := hbatch

theorem exists_executed {start ended : ℚ} {r : NodeReply} (h : execute app c start ended r = .ok (e, tokens, c')) :
    ∃ new, Executed app c e tokens c' new := by
  obtain ⟨⟨s, next⟩, supervisor, reviewer, extractor, workshop, events, batch⟩ := c
  unfold execute at h
  dsimp only at h
  split at h
  · -- intake
    obtain ⟨⟨e, config⟩, hs, h⟩ := bind_eq_ok_iff.1 h
    obtain ⟨rfl, rfl, rfl⟩ := returned_inj h
    cases fires_of_step hs
    exact ⟨_, executed_one _ hs rfl rfl rfl (by simp [escalations, Event.decision]) (by simp [nodeAgents]) rfl rfl⟩
  · -- plan_task
    obtain ⟨⟨e, config⟩, hs, h⟩ := bind_eq_ok_iff.1 h
    obtain ⟨rfl, rfl, rfl⟩ := returned_inj h
    cases fires_of_step hs
    exact ⟨_, executed_one _ hs rfl rfl (sum_usageEntry _ _) (by simp [escalations, Event.decision])
      (by simp [nodeAgents]) rfl rfl⟩
  · -- route_batch: no event
    obtain ⟨⟨e, config⟩, hs, h⟩ := bind_eq_ok_iff.1 h
    obtain ⟨rfl, rfl, rfl⟩ := returned_inj h
    cases fires_of_step hs
    exact ⟨[], ⟨_, hs⟩, (List.append_nil _).symm, rfl, rfl, by simp, rfl, rfl⟩
  · -- review
    obtain ⟨⟨e, config⟩, hs, h⟩ := bind_eq_ok_iff.1 h
    obtain ⟨rfl, rfl, rfl⟩ := returned_inj h
    cases fires_of_step hs
    exact ⟨_, executed_one _ hs rfl rfl (sum_usageEntry _ _) (by simp [escalations, Event.decision])
      (by simp [nodeAgents]) rfl rfl⟩
  · -- apply_review_feedback
    obtain ⟨⟨e, config⟩, hs, h⟩ := bind_eq_ok_iff.1 h
    obtain ⟨rfl, rfl, rfl⟩ := returned_inj h
    cases fires_of_step hs
    exact ⟨_, executed_one _ hs rfl rfl rfl (by simp [escalations, Event.decision]) (by simp [nodeAgents]) rfl rfl⟩
  · -- notify_human
    obtain ⟨⟨e, config⟩, hs, h⟩ := bind_eq_ok_iff.1 h
    obtain ⟨rfl, rfl, rfl⟩ := returned_inj h
    cases fires_of_step hs
    exact ⟨_, executed_one _ hs rfl rfl rfl (by simp [escalations, Event.decision]) (by simp [nodeAgents]) rfl rfl⟩
  · -- synthesize
    obtain ⟨⟨e, config⟩, hs, h⟩ := bind_eq_ok_iff.1 h
    obtain ⟨rfl, rfl, rfl⟩ := returned_inj h
    cases fires_of_step hs
    exact ⟨_, executed_one _ hs rfl rfl (sum_usageEntry _ _) (by simp [escalations, Event.decision])
      (by simp [nodeAgents]) rfl rfl⟩
  · -- deliver: the tokens of the extractor are in no event
    split at h
    · obtain ⟨plan, -, h⟩ := bind_eq_ok_iff.1 h
      obtain ⟨⟨e, config⟩, hs, h⟩ := bind_eq_ok_iff.1 h
      obtain ⟨rfl, rfl, rfl⟩ := returned_inj h
      cases fires_of_step hs
      exact ⟨_, executed_one _ hs rfl rfl rfl (by simp [escalations, Event.decision]) (by simp [nodeAgents]) rfl rfl⟩
    · obtain ⟨⟨e, config⟩, hs, h⟩ := bind_eq_ok_iff.1 h
      obtain ⟨rfl, rfl, rfl⟩ := returned_inj h
      cases fires_of_step hs
      exact ⟨_, executed_one _ hs rfl rfl rfl (by simp [escalations, Event.decision]) (by simp [nodeAgents]) rfl rfl⟩
    · exact absurd h (by simp)
  · -- reject_task
    obtain ⟨⟨e, config⟩, hs, h⟩ := bind_eq_ok_iff.1 h
    obtain ⟨rfl, rfl, rfl⟩ := returned_inj h
    cases fires_of_step hs
    exact ⟨_, executed_one _ hs rfl rfl rfl (by simp [escalations, Event.decision]) (by simp [nodeAgents]) rfl rfl⟩
  · -- human_escalation
    obtain ⟨⟨e, config⟩, hs, h⟩ := bind_eq_ok_iff.1 h
    obtain ⟨⟨escalation, source⟩, -, h⟩ := bind_eq_ok_iff.1 h
    obtain ⟨rfl, rfl, rfl⟩ := returned_inj h
    cases fires_of_step hs
    exact ⟨_, executed_one _ hs rfl rfl rfl (by simp [escalations, Event.decision]) (by simp [nodeAgents]) rfl rfl⟩
  · -- apply_human_decision
    obtain ⟨⟨e, config⟩, hs, h⟩ := bind_eq_ok_iff.1 h
    obtain ⟨decision, -, h⟩ := bind_eq_ok_iff.1 h
    obtain ⟨source, -, h⟩ := bind_eq_ok_iff.1 h
    obtain ⟨rfl, rfl, rfl⟩ := returned_inj h
    cases fires_of_step hs
    exact ⟨_, executed_one _ hs rfl rfl rfl (by simp [escalations, Event.decision]) (by simp [nodeAgents]) rfl rfl⟩
  · exact absurd h (by simp)

end

/-- A batch under way has just been dispatched, or one of its branches has just issued a command. -/
theorem TracedStep.batch_cases {app : App} {c c' : Traced} {l : TraceLabel} {b : Batch} (hs : TracedStep app c l c')
    (hb : c'.batch = some b) : c'.config = c.config ∧ c'.workshop = c.workshop ∧
      ((∃ batch, l = .dispatched ∧ c.config.next = .send batch ∧ b = AgentOrchestrator.dispatch app c batch) ∨
        ∃ old m pool, l = .move m ∧ c.batch = some old ∧ Pool.Step Executes old.pool m pool ∧
          b = ⟨old.moves ++ [m], pool⟩) := by
  cases hs with
  | node hnone hexecute =>
    obtain ⟨events, hexecuted⟩ := exists_executed hexecute
    exact absurd (hb.symm.trans (hexecuted.batch.trans hnone)) (by simp)
  | @dispatch batch hnone hn => exact ⟨rfl, rfl, Or.inl ⟨batch, rfl, hn, (Option.some.inj hb).symm⟩⟩
  | move hold hm => exact ⟨rfl, rfl, Or.inr ⟨_, _, _, rfl, hold, hm, (Option.some.inj hb).symm⟩⟩
  | gather hold hr =>
    have hnone : none = some b := hb
    exact absurd hnone (by simp)

/-! ### Evaluating traced runs -/

/-- What happens next: a node runs, a batch is dispatched or gathered, or the branch `proc` issues its next command. -/
inductive TraceInput where
  | node (start ended : ℚ) (reply : NodeReply)
  | dispatch
  | move (proc : Nat)
  | gather

/-- What the branches have returned, if none is under way or has raised an exception. -/
def returnedBranches : List (SpecialistAgent.Program (Except NodeError Branch)) → Option (List Branch)
  | [] => some []
  | .ret (.ok branch) :: progs => (returnedBranches progs).map (branch :: ·)
  | _ :: _ => none

theorem eq_of_returnedBranches {progs : List (SpecialistAgent.Program (Except NodeError Branch))} {branches : List Branch}
    (h : returnedBranches progs = some branches) : progs = branches.map fun branch => .ret (.ok branch) := by
  induction progs generalizing branches with
  | nil =>
    obtain rfl := Option.some.inj h
    rfl
  | cons prog progs ih =>
    unfold returnedBranches at h
    split at h
    · rename_i heq
      exact absurd heq (by simp)
    · rename_i branch rest heq
      obtain ⟨rfl, rfl⟩ := List.cons.inj heq
      obtain ⟨rest', hrest, rfl⟩ := Option.map_eq_some_iff.1 h
      rw [List.map_cons, ih hrest]
    · exact absurd h (by simp)

/-- One step, with a function that answers the commands of the branches. -/
def Traced.advance (app : App) (answer : (cmd : Command) → Workshop → Response cmd × Workshop) (c : Traced) :
    TraceInput → Except Unit (TraceLabel × Traced)
  | .node start ended reply =>
    match c.batch, execute app c start ended reply with
    | none, .ok (e, tokens, c') => .ok (.node e tokens, c')
    | _, _ => .error ()
  | .dispatch =>
    match c.batch, c.config.next with
    | none, .send batch => .ok (.dispatched, { c with batch := some (dispatch app c batch) })
    | _, _ => .error ()
  | .move proc =>
    match c.batch with
    | none => .error ()
    | some b =>
      match b.pool.advance answer proc with
      | .ok (m, pool) => .ok (.move m, { c with batch := some { moves := b.moves ++ [m], pool := pool } })
      | .error _ => .error ()
  | .gather =>
    match c.batch with
    | none => .error ()
    | some b =>
      match returnedBranches b.pool.progs with
      | some branches => .ok (.gathered (branches.map (·.run)), AgentOrchestrator.gather c b branches)
      | none => .error ()

theorem tracedStep_of_advance {app : App} {answer : (cmd : Command) → Workshop → Response cmd × Workshop}
    (hanswer : ∀ cmd w, Executes cmd w (answer cmd w).1 (answer cmd w).2) {c c' : Traced} {i : TraceInput}
    {l : TraceLabel} (h : c.advance app answer i = .ok (l, c')) : TracedStep app c l c' := by
  unfold Traced.advance at h
  cases i with
  | node start ended reply =>
    dsimp only at h
    split at h
    · rename_i hb hexecute
      obtain ⟨rfl, rfl⟩ := Prod.mk.inj (Except.ok.inj h)
      exact .node hb hexecute
    · exact absurd h (by simp)
  | dispatch =>
    dsimp only at h
    split at h
    · rename_i hb hn
      obtain ⟨rfl, rfl⟩ := Prod.mk.inj (Except.ok.inj h)
      exact .dispatch hb hn
    · exact absurd h (by simp)
  | move proc =>
    dsimp only at h
    split at h
    · exact absurd h (by simp)
    · rename_i b hb
      split at h
      · rename_i hmove
        obtain ⟨rfl, rfl⟩ := Prod.mk.inj (Except.ok.inj h)
        exact .move hb (Pool.step_of_advance hanswer hmove)
      · exact absurd h (by simp)
  | gather =>
    dsimp only at h
    split at h
    · exact absurd h (by simp)
    · rename_i b hb
      split at h
      · rename_i branches hbranches
        obtain ⟨rfl, rfl⟩ := Prod.mk.inj (Except.ok.inj h)
        exact .gather hb (eq_of_returnedBranches hbranches)
      · exact absurd h (by simp)

end AgentOrchestrator
