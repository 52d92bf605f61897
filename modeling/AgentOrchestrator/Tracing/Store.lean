import AgentOrchestrator.Graph.Trace

/-!
# The trace store

The tables `tasks` and `spans`.  A span gets the next id of its table, so the ids of a store grow along `spans`, and the
spans of one task are in the order in which they have been inserted whatever other tasks insert in between.
-/

namespace AgentOrchestrator

/-! ### Prices -/

structure Pricing where
  inputPerMillion : ℚ
  outputPerMillion : ℚ
deriving DecidableEq

/-- `settings.model_pricing`; `fallback` is its entry `"_default"`. -/
structure ModelPricing where
  entries : Dict String Pricing
  fallback : Pricing
  default_eq : entries.get? "_default" = some fallback

/-- `estimate_cost`. -/
def ModelPricing.estimateCost (pricing : ModelPricing) (modelName : String) (inputTokens outputTokens : Nat) : ℚ :=
  let p := (pricing.entries.get? modelName).getD pricing.fallback
  inputTokens * p.inputPerMillion / 1000000 + outputTokens * p.outputPerMillion / 1000000

/-! ### Rows -/

/-- What the recorder puts into `attributes_json`: the attributes of an event, or those of a tool call. -/
inductive SpanAttributes where
  | node (attributes : NodeAttributes)
  | tool (inputs : String) (output error : Option String)
deriving DecidableEq

/-- The arguments of `add_span`. -/
structure Span where
  nodeName : String
  agent : String
  status : EventStatus
  startedAt : ℚ
  endedAt : ℚ
  inputTokens : Nat := 0
  outputTokens : Nat := 0
  costUsd : ℚ := 0
  toolName : Option String := none
  attributes : SpanAttributes
deriving DecidableEq

structure SpanRecord extends Span where
  id : Nat
  taskId : String
  latencyMs : ℚ
deriving DecidableEq

inductive TaskStatus where
  | running
  | completed
  | rejected
  | unknown
deriving DecidableEq

structure TaskRecord where
  taskId : String
  userId : String
  taskText : String
  taskType : Option String := none
  status : TaskStatus
  startedAt : ℚ
  endedAt : Option ℚ := none
  wallClockMs : Option ℚ := none
  humanReviewMs : ℚ := 0
  totalInputTokens : Nat := 0
  totalOutputTokens : Nat := 0
  totalCostUsd : ℚ := 0
  totalToolCalls : Nat := 0
  escalationCount : Nat := 0
deriving DecidableEq

/-- The tables; `lastId` is the largest id that `spans` has ever had. -/
structure TraceStore where
  tasks : Dict String TaskRecord := ∅
  spans : List SpanRecord := []
  lastId : Nat := 0
  ordered : (spans.map (·.id)).Pairwise (· < ·) := by simp
  le_lastId : ∀ span ∈ spans, span.id ≤ lastId := by simp

namespace TraceStore

variable (store : TraceStore) (taskId : String)

/-- The spans of a task, in insertion order. -/
def spansOf : List Span := (store.spans.filter fun span => span.taskId = taskId).map (·.toSpan)

/-! ### The operations -/

def startTask (userId taskText : String) (now : ℚ) : TraceStore :=
  { store with
    tasks := store.tasks.insert taskId {
      taskId := taskId
      userId := userId
      taskText := taskText
      status := .running
      startedAt := now } }

/-- The row of a span that is inserted now. -/
def newSpan (span : Span) : SpanRecord where
  toSpan := span
  id := store.lastId + 1
  taskId := taskId
  latencyMs := (span.endedAt - span.startedAt) * 1000

def addSpan (span : Span) : TraceStore where
  tasks := store.tasks
  spans := store.spans ++ [store.newSpan taskId span]
  lastId := store.lastId + 1
  ordered := by
    rw [List.map_append, List.pairwise_append]
    refine ⟨store.ordered, List.pairwise_singleton _ _, fun id hid id' hid' => ?_⟩
    obtain ⟨span', hspan', rfl⟩ := List.mem_map.1 hid
    obtain rfl := List.mem_singleton.1 hid'
    exact Nat.lt_succ_of_le (store.le_lastId span' hspan')
  le_lastId := by
    intro span' hspan'
    rcases List.mem_append.1 hspan' with hold | hnew
    · exact Nat.le_succ_of_le (store.le_lastId span' hold)
    · exact (List.mem_singleton.1 hnew) ▸ Nat.le_refl _

/-- The totals over the spans of the task are written into its row; it is an error if there is none. -/
def finishTask (status : TaskStatus) (taskType : Option String) (humanReviewMs : ℚ) (escalationCount : Nat) (now : ℚ) :
    Except String TraceStore :=
  match store.tasks.get? taskId with
  | none => .error "'NoneType' object is not subscriptable"
  | some row =>
    let spans := store.spansOf taskId
    .ok { store with
      tasks := store.tasks.insert taskId { row with
        status := status
        taskType := taskType
        endedAt := some now
        wallClockMs := some ((now - row.startedAt) * 1000)
        humanReviewMs := humanReviewMs
        totalInputTokens := (spans.map (·.inputTokens)).sum
        totalOutputTokens := (spans.map (·.outputTokens)).sum
        totalCostUsd := (spans.map (·.costUsd)).sum
        totalToolCalls := (spans.filter (·.toolName.isSome)).length
        escalationCount := escalationCount } }

def getTask : Option TaskRecord := store.tasks.get? taskId

/-! ### Reading after writing -/

@[simp] theorem spansOf_startTask (userId taskText : String) (now : ℚ) (taskId' : String) :
    (store.startTask taskId userId taskText now).spansOf taskId' = store.spansOf taskId' := rfl

@[simp] theorem getTask_startTask (userId taskText : String) (now : ℚ) :
    (store.startTask taskId userId taskText now).getTask taskId = some {
      taskId := taskId
      userId := userId
      taskText := taskText
      status := .running
      startedAt := now } := by
  unfold getTask startTask
  simp [Dict.get?_insert]

theorem getTask_startTask_of_ne (userId taskText : String) (now : ℚ) {taskId' : String} (h : taskId' ≠ taskId) :
    (store.startTask taskId' userId taskText now).getTask taskId = store.getTask taskId := by
  unfold getTask startTask
  rw [Dict.get?_insert, if_neg (Ne.symm h)]

/-- A span is appended to those of its task. -/
@[simp] theorem spansOf_addSpan (span : Span) :
    (store.addSpan taskId span).spansOf taskId = store.spansOf taskId ++ [span] := by
  unfold spansOf addSpan
  simp [newSpan]

/-- A span of another task changes nothing. -/
theorem spansOf_addSpan_of_ne (span : Span) {taskId' : String} (h : taskId' ≠ taskId) :
    (store.addSpan taskId' span).spansOf taskId = store.spansOf taskId := by
  unfold spansOf addSpan
  simp [newSpan, h]

@[simp] theorem getTask_addSpan (span : Span) (taskId' : String) :
    (store.addSpan taskId span).getTask taskId' = store.getTask taskId' := rfl

variable {store : TraceStore} {taskId : String}

/-- The row of the task has the totals over these spans. -/
structure HasTotals (row : TaskRecord) (spans : List Span) : Prop where
  inputTokens : row.totalInputTokens = (spans.map (·.inputTokens)).sum
  outputTokens : row.totalOutputTokens = (spans.map (·.outputTokens)).sum
  costUsd : row.totalCostUsd = (spans.map (·.costUsd)).sum
  toolCalls : row.totalToolCalls = (spans.filter (·.toolName.isSome)).length

/-- What `finish_task` leaves in the row of its task. -/
theorem finishTask_spec {store' : TraceStore} {status : TaskStatus} {taskType : Option String} {humanReviewMs : ℚ}
    {escalationCount : Nat} {now : ℚ}
    (h : store.finishTask taskId status taskType humanReviewMs escalationCount now = .ok store') :
    (∀ taskId', store'.spansOf taskId' = store.spansOf taskId') ∧ ∃ row, store'.getTask taskId = some row ∧
      row.status = status ∧ row.humanReviewMs = humanReviewMs ∧ row.escalationCount = escalationCount ∧
        HasTotals row (store.spansOf taskId) := by
  unfold finishTask at h
  split at h
  · exact absurd h (by simp)
  · obtain rfl := Except.ok.inj h
    exact ⟨fun _ => rfl, _, (Dict.get?_insert ..).trans (if_pos rfl), rfl, rfl, rfl, ⟨rfl, rfl, rfl, rfl⟩⟩

/-- It leaves the rows of other tasks as they are. -/
theorem getTask_finishTask_of_ne {store' : TraceStore} {taskId' : String} {status : TaskStatus}
    {taskType : Option String} {humanReviewMs : ℚ} {escalationCount : Nat} {now : ℚ}
    (h : store.finishTask taskId' status taskType humanReviewMs escalationCount now = .ok store')
    (hne : taskId' ≠ taskId) : store'.getTask taskId = store.getTask taskId := by
  unfold finishTask at h
  split at h
  · exact absurd h (by simp)
  · obtain rfl := Except.ok.inj h
    exact (Dict.get?_insert ..).trans (if_neg (Ne.symm hne))

end TraceStore

end AgentOrchestrator
