import AgentOrchestrator.Graph.State
import AgentOrchestrator.Lib.Text

/-!
# The nodes and routers of the graph

Each node is a function from the state, and from what the agents or the human answer in it, to the update it returns;
each router is a function from the state to what runs next.  A read of a missing key raises: nodes and routers that
read one return in `Except RunError`.  `human_escalation` is split at its `interrupt()`: `escalate` computes the
packaged request and its source from the state, and `humanEscalation` is the resumed node, which computes them again
and stores them with the decision.
-/

namespace AgentOrchestrator

/-- What stops a step: a missing key, a `next()` without a match, or (`unfit`, no error of the code) a reply that the
node about to run cannot get. -/
inductive RunError where
  | keyError (key : String)
  | stopIteration
  | unfit
deriving DecidableEq, Repr

inductive Node where
  | intake
  | planTask
  | routeBatch
  | review
  | applyReviewFeedback
  | notifyHuman
  | synthesize
  | deliver
  | rejectTask
  | humanEscalation
  | applyHumanDecision
deriving DecidableEq, Repr

/-- The state of one `run_specialist` branch, handed over by `Send`. -/
structure SendPayload where
  plan : ExecutionPlan
  completed : Dict String SubtaskResult
  retryCounts : Dict String Nat
  subtaskFeedback : Dict String String
  subtaskId : String
  taskId : Option String
deriving DecidableEq

/-- What runs next: one node, a batch of `run_specialist` branches, or nothing (`END`). -/
inductive Next where
  | node (n : Node)
  | send (batch : List SendPayload)
  | finish
deriving DecidableEq

def planSources : List EscalationSource := [.planLowConfidence, .planSensitive, .planRequested]

/-- The value of an entry that must be there. -/
def require {α : Type} (key : String) (o : Option α) : Except RunError α :=
  match o with
  | some a => .ok a
  | none => .error (.keyError key)

/-! ### Intake and planning -/

def formatMemory (memory : MemoryRecord) : String :=
  "- Past task: " ++ memory.task ++ "\n  Approach that worked: " ++ memory.approachSummary ++
    (if memory.facts = [] then "" else "\n  Known facts: " ++ "; ".intercalate memory.facts) ++
    (if memory.preferences = [] then "" else "\n  User preferences: " ++ "; ".intercalate memory.preferences)

def formatMemories (memories : List MemoryRecord) : String :=
  "\n".intercalate (memories.map formatMemory)

/-- `a or b` on optional text: the empty text counts as missing. -/
def orText (a : Option String) (b : String) : String :=
  match a with
  | some a => if a = "" then b else a
  | none => b

/-- `memories` is what the long-term memory returns, `none` without one. -/
def intake (uuid : String) (memories : Option (List MemoryRecord)) (s : OrchestratorState) : Update where
  taskId := some (orText s.taskId uuid)
  userId := some (orText s.userId "anonymous")
  memoryContext :=
    match memories with
    | some (m :: ms) => some (formatMemories (m :: ms))
    | _ => some (s.memoryContext.getD "")

/-- `plan` is what `create_plan` returns. -/
def planTask (plan : ExecutionPlan) : Update where
  plan := some plan
  completed := ∅
  retryCounts := ∅
  reviewCycles := some 0

/-- The plan has to be approved by a human before any work. -/
def needsApproval (cfg : Settings) (s : OrchestratorState) (plan : ExecutionPlan) : Bool :=
  decide (plan.confidence.1 < cfg.planConfidenceThreshold) || plan.subtasks.any (·.sensitive) ||
    s.requireHumanApproval

def routeAfterPlan (cfg : Settings) (s : OrchestratorState) : Except RunError Next := do
  let plan ← require "plan" s.plan
  return .node (if needsApproval cfg s plan then .humanEscalation else .routeBatch)

/-! ### Dispatching specialists -/

/-- `{st.id: st for st in plan.subtasks}`. -/
def byId (plan : ExecutionPlan) : Dict String SubTask := Dict.ofList (plan.subtasks.map fun st => (st.id, st))

/-- `completed` holds a successful result for the id. -/
def isDone (completed : Dict String SubtaskResult) (sid : String) : Bool :=
  match completed.get? sid with
  | some result => result.success
  | none => false

def depsDone (completed : Dict String SubtaskResult) (subtask : SubTask) : Bool :=
  subtask.dependsOn.all (isDone completed)

/-- The lists the loop of `decide_next_batch` fills. -/
structure Scan where
  ready : List String := []
  stuck : List String := []

/-- One turn of the loop of `decide_next_batch`. -/
def scanSubtask (cfg : Settings) (completed : Dict String SubtaskResult) (retryCounts : Dict String Nat) (acc : Scan)
    (e : String × SubTask) : Scan :=
  let dispatch : Scan := if depsDone completed e.2 then { acc with ready := acc.ready ++ [e.1] } else acc
  match completed.get? e.1 with
  | some result =>
    if result.success then acc
    else if cfg.maxSpecialistRetries ≤ ((retryCounts.get? e.1).getD 0 : Nat) then
      { acc with stuck := acc.stuck ++ [e.1] }
    else dispatch
  | none => dispatch

def scan (cfg : Settings) (plan : ExecutionPlan) (completed : Dict String SubtaskResult)
    (retryCounts : Dict String Nat) : Scan :=
  (byId plan).items.foldl (scanSubtask cfg completed retryCounts) {}

def decideNextBatch (cfg : Settings) (s : OrchestratorState) : Except RunError Next := do
  let plan ← require "plan" s.plan
  let found := scan cfg plan s.completed s.retryCounts
  if found.stuck ≠ [] then
    return .node .humanEscalation
  else if found.ready ≠ [] then
    return .send (found.ready.map fun sid =>
      { plan := plan
        completed := s.completed
        retryCounts := s.retryCounts
        subtaskFeedback := s.subtaskFeedback
        subtaskId := sid
        taskId := s.taskId })
  else
    let unresolved := s.completed.items.filter fun e => !e.2.success
    if unresolved ≠ [] ∨ s.completed.length < (byId plan).length then
      return .node .humanEscalation
    else
      return .node .review

/-- One execution of `run_specialist`: the plan it worked for, what the specialist was given and what came back. -/
structure SpecialistRun where
  plan : ExecutionPlan
  subtask : SubTask
  context : Dict String SubtaskResult
  feedback : Option String
  result : SubtaskResult
deriving DecidableEq

/-- `result` is what the specialist returns (in process or through a Celery worker). -/
def runSpecialist (result : SubtaskResult) (p : SendPayload) : Except RunError (SpecialistRun × Update) :=
  match p.plan.subtasks.find? fun st => st.id = p.subtaskId with
  | none => .error .stopIteration
  | some subtask =>
    let nextRetryCount := (p.retryCounts.get? p.subtaskId).getD 0 + if result.success then 0 else 1
    .ok
      ({ plan := p.plan
         subtask := subtask
         context := p.completed
         feedback := p.subtaskFeedback.get? p.subtaskId
         result := result },
       { completed := Dict.ofKeys [p.subtaskId] fun _ => some result
         retryCounts := Dict.ofKeys [p.subtaskId] fun _ => some nextRetryCount })

/-! ### Reviewing -/

def review (result : ReviewResult) (s : OrchestratorState) : Update where
  review := some result
  reviewCycles := some (s.reviewCycles + 1)

def routeAfterReview (cfg : Settings) (s : OrchestratorState) : Except RunError Next := do
  let result ← require "review" s.review
  if result.requiresHumanReview then
    return .node .humanEscalation
  else if result.approved then
    return .node (if result.score.1 < cfg.reviewScoreThreshold then .notifyHuman else .synthesize)
  else if cfg.maxReviewCycles ≤ (s.reviewCycles : Int) then
    return .node .humanEscalation
  else
    return .node .applyReviewFeedback

def applyReviewFeedback (s : OrchestratorState) : Except RunError Update := do
  let result ← require "review" s.review
  return {
    completed := Dict.ofKeys result.subtasksToRedo fun _ => none
    subtaskFeedback := Dict.ofKeys result.subtasksToRedo fun _ => some result.feedback }

/-- `f"{q:.2f}"` for a nonnegative number: two decimals, ties to the even digit. -/
def fixed2 (q : ℚ) : String :=
  let cents := (q * 100).floor
  let rest := q * 100 - cents
  let n := (if rest < 1 / 2 then cents else if 1 / 2 < rest then cents + 1 else cents + cents % 2).toNat
  toString (n / 100) ++ "." ++ toString (n / 10 % 10) ++ toString (n % 10)

def notifyHuman (cfg : Settings) (s : OrchestratorState) : Except RunError Update := do
  let result ← require "review" s.review
  return {
    escalation := some {
      level := .notify
      reason := "Reviewer approved with a quality score (" ++ fixed2 result.score.1 ++
        ") below the notify threshold (" ++ cfg.reviewScoreThresholdText ++ ")."
      context := { task := s.task, review := some result } }
    escalationSource := some .reviewLowScoreNotify }

/-! ### Finishing -/

/-- `text` is what the supervisor's `synthesize` returns. -/
def synthesize (text : String) : Update where
  finalOutput := some text

/-- `sorted({call.tool_name for r in results.values() for call in r.tool_calls})`. -/
def toolsUsed (results : Dict String SubtaskResult) : List String :=
  (results.items.flatMap fun e => e.2.toolCalls.map (·.toolName)).dedup.mergeSort

/-- `MemoryExtractorAgent.extract`: the record built around what the model extracted, with a fresh id and time. -/
def extract (id : String) (now : ℚ) (extracted : ExtractedMemory) (userId task : String)
    (results : Dict String SubtaskResult) : MemoryRecord where
  id := id
  userId := userId
  task := task
  approachSummary := extracted.approachSummary
  toolsUsed := toolsUsed results
  facts := extracted.facts
  preferences := extracted.preferences
  success := true
  importance := extracted.importance
  createdAt := now
  lastAccessedAt := now

/-- `memory` is what the extractor needs from outside, `none` without a long-term memory or an extractor; the record
it adds to the long-term memory is returned beside the update. -/
def deliver (memory : Option (String × ℚ × ExtractedMemory)) (s : OrchestratorState) :
    Except RunError (Option MemoryRecord × Update) :=
  match memory with
  | none => return (none, { status := some .completed })
  | some (id, now, extracted) => do
    let _plan ← require "plan" s.plan
    let record := extract id now extracted (s.userId.getD "anonymous") s.task s.completed
    return (some record, { status := some .completed })

def rejectTask : Update where
  status := some .rejected

/-! ### Human escalation -/

/-- The list comprehension over `retry_counts` in `human_escalation`. -/
def stuckIds (cfg : Settings) (s : OrchestratorState) : List String :=
  (s.retryCounts.items.filter fun e =>
    decide (cfg.maxSpecialistRetries ≤ (e.2 : Int)) &&
      match s.completed.get? e.1 with
      | some result => !result.success
      | none => false).map Prod.fst

/-- The level, the reason, the source and the stuck ids `human_escalation` works out from the state. -/
def classify (cfg : Settings) (s : OrchestratorState) :
    Except RunError (EscalationLevel × String × EscalationSource × List String) :=
  if s.completed.isEmpty && s.review.isNone then do
    let plan ← require "plan" s.plan
    if plan.confidence.1 < cfg.planConfidenceThreshold then
      return (.approvePlan, "Supervisor's plan confidence is below threshold.", .planLowConfidence, [])
    else if plan.subtasks.any (·.sensitive) then
      return (.approvePlan, "This plan includes a sensitive operation (financial, " ++
        "data-destructive, or external communication).", .planSensitive, [])
    else
      return (.approvePlan, "Human review of the plan was explicitly requested.", .planRequested, [])
  else
    match s.review with
    | some result =>
      if result.requiresHumanReview then
        return (.approveAction, "Reviewer flagged this deliverable as sensitive or high-risk.", .reviewSensitive, [])
      else
        return (.takeOver, "Reviewer did not approve the output after " ++ toString s.reviewCycles ++
          " attempt(s).", .reviewExhausted, [])
    | none =>
      return (.takeOver, "A specialist could not complete its subtask after the retry limit.", .specialistRetry,
        stuckIds cfg s)

/-- `human_escalation` up to its `interrupt()`: the packaged request and its source. -/
def escalate (cfg : Settings) (s : OrchestratorState) : Except RunError (EscalationRequest × EscalationSource) := do
  let (level, reason, source, stuck) ← classify cfg s
  return (
    { level := level
      reason := reason
      context := {
        task := s.task
        userId := s.userId
        plan := s.plan
        completed := some s.completed
        review := s.review
        memoryContext := some (s.memoryContext.getD "")
        stuckSubtaskIds := some stuck } },
    source)

/-- `human_escalation` resumed with a decision. -/
def humanEscalation (cfg : Settings) (decision : HumanDecision) (s : OrchestratorState) : Except RunError Update := do
  let (escalation, source) ← escalate cfg s
  return {
    escalation := some escalation
    escalationSource := some source
    humanDecision := some decision }

/-- The result a take-over stores for a stuck subtask. -/
def takeOverResult (plan : ExecutionPlan) (decision : HumanDecision) (sid : String) :
    Except RunError (String × Option SubtaskResult) := do
  let subtask ← require sid ((byId plan).get? sid)
  return (sid, some {
    subtaskId := sid
    specialist := subtask.specialist
    success := true
    output := some (decision.output.getD "")
    confidence := ⟨1, by norm_num⟩ })

/-- The guidance of a human, added to the memory the planner sees. -/
def addGuidance (memoryContext guidance : String) : String :=
  Text.strip (memoryContext ++ "\n\nHuman guidance: " ++ guidance)

/-- `state["review"].subtasks_to_redo or [st.id for st in plan.subtasks]`. -/
def redoIds (result : ReviewResult) (plan : ExecutionPlan) : List String :=
  if result.subtasksToRedo = [] then plan.subtasks.map (·.id) else result.subtasksToRedo

def applyHumanDecision (s : OrchestratorState) : Except RunError Update := do
  let decision ← require "human_decision" s.humanDecision
  let source ← require "escalation_source" s.escalationSource
  let escalation ← require "escalation" s.escalation
  let stuck := escalation.context.stuckSubtaskIds.getD []
  match decision.action with
  | .takeOver =>
    if source = .specialistRetry then
      let plan ← require "plan" s.plan
      let results ← stuck.mapM (takeOverResult plan decision)
      return { completed := Dict.ofList results }
    else
      return { finalOutput := some (decision.output.getD "") }
  | .modify =>
    let guidance := decision.feedback.getD ""
    if source ∈ planSources then
      return { memoryContext := some (addGuidance (s.memoryContext.getD "") guidance) }
    else if source = .specialistRetry then
      return {
        subtaskFeedback := Dict.ofKeys stuck fun _ => some guidance
        completed := Dict.ofKeys stuck fun _ => none
        retryCounts := Dict.ofKeys stuck fun _ => some 0 }
    else
      let result ← require "review" s.review
      let plan ← require "plan" s.plan
      return {
        subtaskFeedback := Dict.ofKeys (redoIds result plan) fun _ => some guidance
        completed := Dict.ofKeys (redoIds result plan) fun _ => none }
  | .approve =>
    if source = .specialistRetry then
      return {
        completed := Dict.ofKeys stuck fun _ => none
        retryCounts := Dict.ofKeys stuck fun _ => some 0 }
    else
      return {}
  | .reject => return {}

def routeAfterDecision (s : OrchestratorState) : Except RunError Next := do
  let decision ← require "human_decision" s.humanDecision
  let source ← require "escalation_source" s.escalationSource
  match decision.action with
  | .reject => return .node .rejectTask
  | .takeOver => return .node (if source = .specialistRetry then .routeBatch else .deliver)
  | .modify =>
    if source ∈ planSources then
      return .node .planTask
    else if source = .specialistRetry then
      return .node .routeBatch
    else
      return .node .applyReviewFeedback
  | .approve =>
    if source ∈ planSources ∨ source = .specialistRetry then
      return .node .routeBatch
    else
      return .node .synthesize

end AgentOrchestrator
