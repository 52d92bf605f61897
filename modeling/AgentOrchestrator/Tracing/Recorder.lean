import AgentOrchestrator.Graph.Projection
import AgentOrchestrator.HumanLoop.Pairing
import AgentOrchestrator.Tracing.Store

/-!
# The recorder

`run_traced_task` drives the graph through any number of interrupts.  After each `invoke` it persists the events that
are new, one insert after another; in between the store takes the writes of other tasks, and the approval queue those of
the reviewers.  An exception may end it at any moment.
-/

namespace AgentOrchestrator

/-! ### Spans of an event -/

def nodeSpan (pricing : ModelPricing) (event : TraceEvent) : Span where
  nodeName := event.node
  agent := event.agent
  status := event.status
  startedAt := event.startedAt
  endedAt := event.endedAt
  inputTokens := (event.usage.map (·.inputTokens)).sum
  outputTokens := (event.usage.map (·.outputTokens)).sum
  costUsd := (event.usage.map fun u => pricing.estimateCost u.model u.inputTokens u.outputTokens).sum
  attributes := .node event.attributes

def toolSpan (event : TraceEvent) (call : ToolCallLog) : Span where
  nodeName := "tool:" ++ call.toolName
  agent := event.agent
  status := if call.success then .success else .failure
  startedAt := event.endedAt - call.latencyMs / 1000
  endedAt := event.endedAt
  toolName := some call.toolName
  attributes := .tool call.inputs call.output call.error

/-- The spans that `_persist_and_export` adds for an event, in order. -/
def spansOfEvent (pricing : ModelPricing) (event : TraceEvent) : List Span :=
  nodeSpan pricing event :: event.attributes.toolCalls.map (toolSpan event)

/-! ### The state -/

/-- What the recorder is called with. -/
structure Recording where
  app : App
  pricing : ModelPricing
  taskId : String
  useQueue : Bool

/-- Where `run_traced_task` is: in an `invoke`, with the decision it resumes the graph with; persisting events; waiting
for a decision; about to note an escalation that blocks nothing, and then to finish the task; or it has returned or raised
an exception. -/
inductive Phase where
  | invoking (resume : Option HumanDecision)
  | recording (pending : List Span)
  | waiting
  | noting (humanReviewMs : ℚ)
  | closing (humanReviewMs : ℚ)
  | returned
  | raised
deriving DecidableEq

/-- `recorded` is the number of events that have been persisted. -/
structure Recorder where
  graph : Traced
  store : TraceStore
  queue : ApprovalQueue.System
  recorded : Nat := 0
  phase : Phase := .invoking none

/-- The graph has come to its end or to an interrupt. -/
def Traced.Returns (c : Traced) (settings : Settings) : Prop :=
  c.batch = none ∧ (c.config.next = .finish ∨
    c.config.next = .node .humanEscalation ∧ ∃ request, escalate settings c.config.state = .ok request)

/-- `human_review_ms` from the entry of the queue; a tick is a microsecond. -/
def humanReviewMs {ε δ : Type} (entry : Option (PendingApproval ε δ)) : ℚ :=
  match entry with
  | some approval =>
    match approval.resolvedAt with
    | some resolvedAt => ((resolvedAt : ℚ) - approval.createdAt) / 1000
    | none => 0
  | none => 0

def statusOf : Option RunStatus → TaskStatus
  | some .completed => .completed
  | some .rejected => .rejected
  | none => .unknown

/-- `"+".join(sorted({st.specialist.value for st in plan.subtasks})) if plan else "unknown"`. -/
def taskTypeOf : Option ExecutionPlan → String
  | some plan => "+".intercalate (plan.subtasks.map (·.specialist.value)).dedup.mergeSort
  | none => "unknown"

/-- The queue after the note on an escalation that blocks nothing. -/
def notified (rec : Recording) (s : OrchestratorState) (queue : ApprovalQueue.System) (createdAt resolvedAt : Nat) :
    ApprovalQueue.System :=
  match s.escalation with
  | some request =>
    if rec.useQueue = true ∧ request.level = .notify then
      { queue with
        store := ((ApprovalQueue.notify rec.taskId { request := request, submission := queue.submitted } createdAt
          resolvedAt).eval ApprovalQueue.exec queue.store).2 }
    else queue
  | none => queue

/-! ### Steps -/

/-- `queue` has the entry that a poll of `wait_for_decision` has read. -/
inductive RecorderLabel where
  | graph (l : TraceLabel)
  | invoked
  | persisted
  | submitted (now : Nat)
  | prompted
  | queue (read : Option (Option ApprovalQueue.Approval)) (e : ApprovalQueue.Event)
  | resumed (decision : HumanDecision)
  | measured (humanReviewMs : ℚ)
  | noted
  | finished
  | raised
  | others

/-- The escalations of the task are submitted by the recorder itself. -/
def ApprovalQueue.Action.escalates : ApprovalQueue.Action → Bool
  | .escalate _ _ _ => true
  | _ => false

def ApprovalQueue.Event.resumes : ApprovalQueue.Event → Bool
  | .resumed _ _ => true
  | _ => false

/-- The entry that `wait_for_decision` reads in an action. -/
def ApprovalQueue.System.read (queue : ApprovalQueue.System) (taskId : String) :
    ApprovalQueue.Action → Option (Option ApprovalQueue.Approval)
  | .runner =>
    match queue.runner with
    | .waiting (.call _ _) => some (queue.store.approvals.get? taskId)
    | _ => none
  | _ => none

/-- The steps of `run_traced_task`, of the reviewers, and of what else writes to the store. -/
inductive RecorderStep (rec : Recording) : Recorder → RecorderLabel → Recorder → Prop
  | graph {r : Recorder} {resume : Option HumanDecision} {l : TraceLabel} {c : Traced}
      (hp : r.phase = .invoking resume) (h : TracedStep rec.app r.graph l c) (hl : l.decision = resume) :
      RecorderStep rec r (.graph l) { r with graph := c, phase := .invoking none }
  | invoked {r : Recorder} (hp : r.phase = .invoking none) (h : r.graph.Returns rec.app.settings) :
      RecorderStep rec r .invoked
        { r with phase := .recording ((r.graph.events.drop r.recorded).flatMap (spansOfEvent rec.pricing)) }
  | persisted {r : Recorder} {span : Span} {spans : List Span} (hp : r.phase = .recording (span :: spans)) :
      RecorderStep rec r .persisted
        { r with store := r.store.addSpan rec.taskId span, phase := .recording spans }
  | submitted {r : Recorder} {request : EscalationRequest} {source : EscalationSource} {now : Nat}
      {queue : ApprovalQueue.System} (hp : r.phase = .recording [])
      (hn : r.graph.config.next = .node .humanEscalation) (hq : rec.useQueue = true)
      (he : escalate rec.app.settings r.graph.config.state = .ok (request, source))
      (h : ApprovalQueue.step rec.taskId r.queue (.escalate request source.value now) = .ok (.quiet, queue)) :
      RecorderStep rec r (.submitted now)
        { r with queue := queue, recorded := r.graph.events.length, phase := .waiting }
  | prompted {r : Recorder} (hp : r.phase = .recording []) (hn : r.graph.config.next = .node .humanEscalation)
      (hq : rec.useQueue = false) :
      RecorderStep rec r .prompted { r with recorded := r.graph.events.length, phase := .waiting }
  | queue {r : Recorder} {a : ApprovalQueue.Action} {e : ApprovalQueue.Event} {queue : ApprovalQueue.System}
      (hq : rec.useQueue = true) (ha : a.escalates = false) (hw : a = .runner → r.phase = .waiting)
      (h : ApprovalQueue.step rec.taskId r.queue a = .ok (e, queue)) (he : e.resumes = false) :
      RecorderStep rec r (.queue (r.queue.read rec.taskId a) e) { r with queue := queue }
  | resumed {r : Recorder} {n : Nat} {decision : ApprovalQueue.Aimed} {queue : ApprovalQueue.System}
      (hp : r.phase = .waiting) (hq : rec.useQueue = true)
      (h : ApprovalQueue.step rec.taskId r.queue .runner = .ok (.resumed n decision, queue)) :
      RecorderStep rec r (.resumed decision.decision)
        { r with queue := queue, phase := .invoking (some decision.decision) }
  | answered {r : Recorder} (decision : HumanDecision) (hp : r.phase = .waiting) (hq : rec.useQueue = false) :
      RecorderStep rec r (.resumed decision) { r with phase := .invoking (some decision) }
  | measured {r : Recorder} (hp : r.phase = .recording []) (hn : r.graph.config.next = .finish) :
      RecorderStep rec r
        (.measured (if rec.useQueue then humanReviewMs (r.queue.store.approvals.get? rec.taskId) else 0))
        { r with
          recorded := r.graph.events.length
          phase := .noting (if rec.useQueue then humanReviewMs (r.queue.store.approvals.get? rec.taskId) else 0) }
  | noted {r : Recorder} {ms : ℚ} {createdAt resolvedAt : Nat} (hp : r.phase = .noting ms) :
      RecorderStep rec r .noted
        { r with queue := notified rec r.graph.config.state r.queue createdAt resolvedAt, phase := .closing ms }
  | finished {r : Recorder} {ms now : ℚ} {store : TraceStore} (hp : r.phase = .closing ms)
      (h : r.store.finishTask rec.taskId (statusOf r.graph.config.state.status)
        (some (taskTypeOf r.graph.config.state.plan)) ms (escalations r.graph.events).length now = .ok store) :
      RecorderStep rec r .finished { r with store := store, phase := .returned }
  | raised {r : Recorder} (hp : r.phase ≠ .returned) : RecorderStep rec r .raised { r with phase := .raised }
  | others {r : Recorder} (store : TraceStore) (hs : store.spansOf rec.taskId = r.store.spansOf rec.taskId)
      (ht : store.getTask rec.taskId = r.store.getTask rec.taskId) :
      RecorderStep rec r .others { r with store := store }

/-- What the runs of other tasks write to the store are steps of the others. -/
theorem others_of_writes {rec : Recording} (r : Recorder) {taskId : String} (hne : taskId ≠ rec.taskId) :
    (∀ userId task now,
        RecorderStep rec r .others { r with store := r.store.startTask taskId userId task now }) ∧
      (∀ span, RecorderStep rec r .others { r with store := r.store.addSpan taskId span }) ∧
      ∀ status taskType ms count now store, r.store.finishTask taskId status taskType ms count now = .ok store →
        RecorderStep rec r .others { r with store := store } := by
  refine ⟨fun userId task now => ?_, fun span => ?_, fun status taskType ms count now store h => ?_⟩
  · exact .others _ (r.store.spansOf_startTask ..) (r.store.getTask_startTask_of_ne _ _ _ _ hne)
  · exact .others _ (r.store.spansOf_addSpan_of_ne _ span hne) (r.store.getTask_addSpan ..)
  · obtain ⟨hspans, -⟩ := TraceStore.finishTask_spec h
    exact .others store (hspans rec.taskId) (TraceStore.getTask_finishTask_of_ne h hne)

/-! ### The start -/

/-- What `run_traced_task` invokes the graph with. -/
def initialState (rec : Recording) (task userId : String) (requireHumanApproval : Bool) : OrchestratorState where
  task := task
  userId := some userId
  taskId := some rec.taskId
  memoryContext := some ""
  requireHumanApproval := requireHumanApproval

theorem fresh_initialState (rec : Recording) (task userId : String) (requireHumanApproval : Bool) :
    Fresh (initialState rec task userId requireHumanApproval) := ⟨rfl, rfl, rfl, rfl⟩

/-- The run of a task whose id is new to the store and the queue, right after `start_task`. -/
structure Begins (rec : Recording) (r : Recorder) : Prop where
  config : ∃ task userId requireHumanApproval,
    r.graph.config = start (initialState rec task userId requireHumanApproval)
  events : r.graph.events = []
  batch : r.graph.batch = none
  store : ∃ store userId task now, store.spansOf rec.taskId = [] ∧
    r.store = TraceStore.startTask store rec.taskId userId task now
  queue : ∃ store, store.approvals.get? rec.taskId = none ∧ r.queue = ApprovalQueue.start store
  recorded : r.recorded = 0
  phase : r.phase = .invoking none

/-! ### The graph in the recorder -/

def RecorderLabel.graph? : RecorderLabel → Option TraceLabel
  | .graph l => some l
  | _ => none

/-- What the recorder does to the graph is a traced run. -/
theorem exec_graph {rec : Recording} {r r' : Recorder} {tr : List RecorderLabel}
    (h : Exec (RecorderStep rec) r tr r') :
    Exec (TracedStep rec.app) r.graph (tr.filterMap RecorderLabel.graph?) r'.graph := by
  induction h with
  | refl => exact .refl
  | @snoc tr t u l _ hs ih =>
    rw [List.filterMap_append]
    cases hs with
    | graph hp h hl => exact ih.snoc h
    | _ => exact (List.append_nil (tr.filterMap RecorderLabel.graph?)).symm ▸ ih

/-- In every run the batch under way is one that the graph has dispatched. -/
theorem underway_of_exec {rec : Recording} {r r' : Recorder} {tr : List RecorderLabel} (h0 : Begins rec r)
    (h : Exec (RecorderStep rec) r tr r') : Underway r'.graph := by
  obtain ⟨task, userId, requireHumanApproval, hconfig⟩ := h0.config
  exact (exec_of_traced hconfig (fresh_initialState ..) h0.batch (exec_graph h)).2

/-- No batch is under way while the recorder is outside of the graph. -/
def Idle (r : Recorder) : Prop := r.phase = .invoking none ∨ r.phase = .raised ∨ r.graph.batch = none

theorem RecorderStep.idle {rec : Recording} {r r' : Recorder} {l : RecorderLabel} (h : Idle r)
    (hs : RecorderStep rec r l r') : Idle r' := by
  have hout : ∀ phase : Phase, r.phase = phase → phase ≠ .invoking none → phase ≠ .raised → r.graph.batch = none := by
    intro phase hp hne hne'
    rcases h with hin | hraised | hbatch
    · exact absurd (hp.symm.trans hin) hne
    · exact absurd (hp.symm.trans hraised) hne'
    · exact hbatch
  cases hs with
  | graph hp h hl => exact Or.inl rfl
  | invoked hp hreturns => exact Or.inr (Or.inr hreturns.1)
  | @persisted span spans hp => exact Or.inr (Or.inr (hout _ hp (by simp) (by simp)))
  | submitted hp hn hq he hqueue => exact Or.inr (Or.inr (hout _ hp (by simp) (by simp)))
  | prompted hp hn hq => exact Or.inr (Or.inr (hout _ hp (by simp) (by simp)))
  | queue hq ha hw hqueue he => exact h
  | resumed hp hq hqueue => exact Or.inr (Or.inr (hout _ hp (by simp) (by simp)))
  | answered decision hp hq => exact Or.inr (Or.inr (hout _ hp (by simp) (by simp)))
  | measured hp hn => exact Or.inr (Or.inr (hout _ hp (by simp) (by simp)))
  | noted hp => exact Or.inr (Or.inr (hout _ hp (by simp) (by simp)))
  | finished hp hfinish => exact Or.inr (Or.inr (hout _ hp (by simp) (by simp)))
  | raised hp => exact Or.inr (Or.inl rfl)
  | others store hspans ht => exact h

theorem idle_of_exec {rec : Recording} {r r' : Recorder} {tr : List RecorderLabel} (h0 : Begins rec r)
    (h : Exec (RecorderStep rec) r tr r') : Idle r' :=
  h.stateInvariant Idle (Or.inl h0.phase) fun _ _ _ hidle hs => hs.idle hidle

/-! ### Evaluating runs -/

/-- What happens next in the run of the recorder. -/
inductive RecorderInput where
  | graph (i : TraceInput)
  | invoked
  | persist
  | submit (now : Nat)
  | queue (a : ApprovalQueue.Action)
  | measure
  | note (createdAt resolvedAt : Nat)
  | finish (now : ℚ)
  | raise

/-- One step, with a function that answers the commands of the branches. -/
def Recorder.advance (rec : Recording)
    (answer : (cmd : SpecialistAgent.Command) → SpecialistAgent.Workshop →
      SpecialistAgent.Response cmd × SpecialistAgent.Workshop)
    (r : Recorder) : RecorderInput → Except Unit (RecorderLabel × Recorder)
  | .graph i =>
    match r.phase, r.graph.advance rec.app answer i with
    | .invoking resume, .ok (l, c) =>
      if l.decision = resume then .ok (.graph l, { r with graph := c, phase := .invoking none }) else .error ()
    | _, _ => .error ()
  | .invoked =>
    match r.phase, r.graph.batch, r.graph.config.next, escalate rec.app.settings r.graph.config.state with
    | .invoking none, none, .finish, _ => .ok (.invoked,
        { r with phase := .recording ((r.graph.events.drop r.recorded).flatMap (spansOfEvent rec.pricing)) })
    | .invoking none, none, .node .humanEscalation, .ok _ => .ok (.invoked,
        { r with phase := .recording ((r.graph.events.drop r.recorded).flatMap (spansOfEvent rec.pricing)) })
    | _, _, _, _ => .error ()
  | .persist =>
    match r.phase with
    | .recording (span :: spans) =>
      .ok (.persisted, { r with store := r.store.addSpan rec.taskId span, phase := .recording spans })
    | _ => .error ()
  | .submit now =>
    match r.phase, r.graph.config.next, escalate rec.app.settings r.graph.config.state with
    | .recording [], .node .humanEscalation, .ok (request, source) =>
      match rec.useQueue, ApprovalQueue.step rec.taskId r.queue (.escalate request source.value now) with
      | true, .ok (.quiet, queue) => .ok (.submitted now,
          { r with queue := queue, recorded := r.graph.events.length, phase := .waiting })
      | _, _ => .error ()
    | _, _, _ => .error ()
  | .queue a =>
    if rec.useQueue = true ∧ a.escalates = false ∧ r.phase = .waiting then
      match ApprovalQueue.step rec.taskId r.queue a with
      | .ok (e, queue) =>
        if e.resumes = false then .ok (.queue (r.queue.read rec.taskId a) e, { r with queue := queue })
        else
          match a, e with
          | .runner, .resumed _ decision => .ok (.resumed decision.decision,
              { r with queue := queue, phase := .invoking (some decision.decision) })
          | _, _ => .error ()
      | .error _ => .error ()
    else .error ()
  | .measure =>
    match r.phase, r.graph.config.next with
    | .recording [], .finish =>
      let ms := if rec.useQueue then humanReviewMs (r.queue.store.approvals.get? rec.taskId) else 0
      .ok (.measured ms, { r with recorded := r.graph.events.length, phase := .noting ms })
    | _, _ => .error ()
  | .note createdAt resolvedAt =>
    match r.phase with
    | .noting ms => .ok (.noted,
        { r with queue := notified rec r.graph.config.state r.queue createdAt resolvedAt, phase := .closing ms })
    | _ => .error ()
  | .finish now =>
    match r.phase with
    | .closing ms =>
      let s := r.graph.config.state
      match r.store.finishTask rec.taskId (statusOf s.status) (some (taskTypeOf s.plan)) ms
        (escalations r.graph.events).length now with
      | .ok store => .ok (.finished, { r with store := store, phase := .returned })
      | .error _ => .error ()
    | _ => .error ()
  | .raise => if r.phase = .returned then .error () else .ok (.raised, { r with phase := .raised })

theorem recorderStep_of_advance {rec : Recording}
    {answer : (cmd : SpecialistAgent.Command) → SpecialistAgent.Workshop →
      SpecialistAgent.Response cmd × SpecialistAgent.Workshop}
    (hanswer : ∀ cmd w, SpecialistAgent.Executes cmd w (answer cmd w).1 (answer cmd w).2) {r r' : Recorder}
    {i : RecorderInput} {l : RecorderLabel} (h : r.advance rec answer i = .ok (l, r')) : RecorderStep rec r l r' := by
  unfold Recorder.advance at h
  cases i with
  | graph i =>
    dsimp only at h
    split at h
    · rename_i hp hgraph
      split at h
      · rename_i hl
        obtain ⟨rfl, rfl⟩ := Prod.mk.inj (Except.ok.inj h)
        exact .graph hp (tracedStep_of_advance hanswer hgraph) hl
      · exact absurd h (by simp)
    · exact absurd h (by simp)
  | invoked =>
    dsimp only at h
    split at h
    · rename_i hp hb hn
      obtain ⟨rfl, rfl⟩ := Prod.mk.inj (Except.ok.inj h)
      exact .invoked hp ⟨hb, Or.inl hn⟩
    · rename_i hp hb hn he
      obtain ⟨rfl, rfl⟩ := Prod.mk.inj (Except.ok.inj h)
      exact .invoked hp ⟨hb, Or.inr ⟨hn, _, he⟩⟩
    · exact absurd h (by simp)
  | persist =>
    dsimp only at h
    split at h
    · rename_i hp
      obtain ⟨rfl, rfl⟩ := Prod.mk.inj (Except.ok.inj h)
      exact .persisted hp
    · exact absurd h (by simp)
  | submit now =>
    dsimp only at h
    split at h
    · rename_i hp hn he
      split at h
      · rename_i hq hstep
        obtain ⟨rfl, rfl⟩ := Prod.mk.inj (Except.ok.inj h)
        exact .submitted hp hn hq he hstep
      · exact absurd h (by simp)
    · exact absurd h (by simp)
  | queue a =>
    dsimp only at h
    split at h
    · rename_i hcond
      obtain ⟨hq, ha, hp⟩ := hcond
      split at h
      · rename_i hstep
        split at h
        · rename_i he
          obtain ⟨rfl, rfl⟩ := Prod.mk.inj (Except.ok.inj h)
          exact .queue hq ha (fun _ => hp) hstep he
        · -- only the runner resumes
          split at h
          · obtain ⟨rfl, rfl⟩ := Prod.mk.inj (Except.ok.inj h)
            exact .resumed hp hq hstep
          · exact absurd h (by simp)
      · exact absurd h (by simp)
    · exact absurd h (by simp)
  | measure =>
    dsimp only at h
    split at h
    · rename_i hp hn
      obtain ⟨rfl, rfl⟩ := Prod.mk.inj (Except.ok.inj h)
      exact .measured hp hn
    · exact absurd h (by simp)
  | note createdAt resolvedAt =>
    dsimp only at h
    split at h
    · rename_i hp
      obtain ⟨rfl, rfl⟩ := Prod.mk.inj (Except.ok.inj h)
      exact .noted hp
    · exact absurd h (by simp)
  | finish now =>
    dsimp only at h
    split at h
    · rename_i hp
      split at h
      · rename_i hfinish
        obtain ⟨rfl, rfl⟩ := Prod.mk.inj (Except.ok.inj h)
        exact .finished hp hfinish
      · exact absurd h (by simp)
    · exact absurd h (by simp)
  | raise =>
    dsimp only at h
    split at h
    · exact absurd h (by simp)
    · rename_i hp
      obtain ⟨rfl, rfl⟩ := Prod.mk.inj (Except.ok.inj h)
      exact .raised hp

/-! ### A set-up for concrete runs -/

/-- A reply that reports its tokens. -/
def sampleMessage (inputTokens outputTokens : Nat) : AiMessage where
  content := "Text."
  usageMetadata := some (Dict.ofList [("input_tokens", inputTokens), ("output_tokens", outputTokens)])

/-- A model that asks for a tool at first and then answers, with thirty and fifteen tokens in each reply. -/
def sampleAnswer (cmd : SpecialistAgent.Command) (w : SpecialistAgent.Workshop) :
    SpecialistAgent.Response cmd × SpecialistAgent.Workshop :=
  match cmd with
  | .awaitJob _ => (SpecialistAgent.Wait.answered, w)
  | .now => ((0 : ℚ), w)
  | .newRegistry registry => ((), { w with callLogs := Function.update w.callLogs registry [] })
  | .newAgent agent _ => (Except.ok (), { w with agents := Function.update w.agents agent {} })
  | .bindTools _ => (Except.ok (), w)
  | .invoke _ _ messages => (Except.ok {
      toAiMessage := sampleMessage 30 15
      toolCalls := if messages.length ≤ 2 then [⟨"call-1", "web_search", "\x7b\x7d"⟩] else [] }, w)
  | .structured _ _ =>
    (Except.ok (sampleMessage 30 15, some { output := "Facts.", confidence := ⟨1 / 2, half_isScore⟩ }), w)
  | .useTool _ _ call => (Except.ok {
      toolName := call.name
      inputs := call.args
      output := some "Found."
      success := true
      latencyMs := 20 }, w)
  | .readLog registry => (w.callLogs registry, w)
  | .appendLog registry log =>
    ((), { w with callLogs := Function.update w.callLogs registry (w.callLogs registry ++ [log]) })
  | .read agent name => ((w.agents agent).get name, w)
  | .write agent edit => ((), { w with agents := Function.update w.agents agent ((w.agents agent).set edit) })

theorem executes_sampleAnswer (cmd : SpecialistAgent.Command) (w : SpecialistAgent.Workshop) :
    SpecialistAgent.Executes cmd w (sampleAnswer cmd w).1 (sampleAnswer cmd w).2 := by
  cases cmd with
  | readLog registry => exact ⟨rfl, rfl⟩
  | read agent name => exact ⟨rfl, rfl⟩
  | _ => rfl

def sampleRecording : Recording where
  app := {
    settings := Settings.default
    useCelery := false
    specialistModels := fun _ => "gpt-5"
    specialistTools := fun _ => ["web_search"]
    dumpPlan := fun plan => plan.goal
    dumpReview := fun result => result.feedback
    dumpMemory := fun memory => memory.approachSummary }
  pricing := {
    entries := Dict.ofList [("_default", ⟨1, 2⟩)]
    fallback := ⟨1, 2⟩
    default_eq := by decide +kernel }
  taskId := "t"
  useQueue := true

def sampleRecorder (extractor : Option BaseAgent) : Recorder where
  graph := {
    config := start (initialState sampleRecording "Report" "alice" false)
    supervisor := SupervisorAgent.new "gpt-5"
    reviewer := { modelName := "gpt-5", systemPrompt := "Review." }
    extractor := extractor
    workshop := ⟨fun _ => {}, fun _ => []⟩ }
  store := TraceStore.startTask {} "t" "alice" "Report" 0
  queue := ApprovalQueue.start {}

theorem begins_sampleRecorder (extractor : Option BaseAgent) : Begins sampleRecording (sampleRecorder extractor) where
  config := ⟨"Report", "alice", false, rfl⟩
  events := rfl
  batch := rfl
  store := ⟨{}, "alice", "Report", 0, rfl, rfl⟩
  queue := ⟨{}, rfl, rfl⟩
  recorded := rfl
  phase := rfl

def nodeInput (reply : NodeReply) : RecorderInput := .graph (.node 0 1 reply)

/-- The graph is interrupted with so many spans to persist; a reviewer opens the entry, as the call `call`, and makes a
decision, with which the graph is resumed. -/
def escalationScript (spans submitted decided call : Nat) (decision : HumanDecision) : List RecorderInput :=
  [.invoked] ++ List.replicate spans .persist ++ [.submit submitted] ++ List.replicate 3 (.queue .runner) ++
    [.queue (.look (.one "t")), .queue (.proceed call), .queue (.decide call 0 decision decided)] ++
    List.replicate 3 (.queue (.proceed (call + 1))) ++ List.replicate 2 (.queue .runner) ++
    [nodeInput (.decision decision), nodeInput .none]

/-- The graph has ended with so many spans to persist. -/
def finishScript (spans : Nat) : List RecorderInput :=
  [.invoked] ++ List.replicate spans .persist ++ [.measure, .note 0 0, .finish 10]

/-- A run with a plan that is approved by a human, a batch with one branch and a review. -/
def approvedScript (memory : NodeReply) : List RecorderInput :=
  [nodeInput (.intake "u" none), nodeInput (.plan (sampleMessage 100 50) sensitivePlan)] ++
    escalationScript 2 5000 9000 0 { action := .approve } ++ [nodeInput .none, .graph .dispatch] ++
    List.replicate 30 (.graph (.move 0)) ++ [.graph .gather, nodeInput .none,
      nodeInput (.review (sampleMessage 20 10) (sampleReview true [])), nodeInput (.synthesis (sampleMessage 100 50)),
      nodeInput memory] ++ finishScript 7

/-- A script that evaluates without an error, taking only steps with `q`, is a run of such steps. -/
theorem exists_run_with {q : Recorder → RecorderLabel → Prop} [∀ r l, Decidable (q r l)] {extractor : Option BaseAgent}
    {script : List RecorderInput} {p : List RecorderLabel → Recorder → Bool}
    (h : scriptEnds (guarded (Recorder.advance sampleRecording sampleAnswer) q) (sampleRecorder extractor) script p =
      true) :
    ∃ tr r, Exec (fun r l r' => RecorderStep sampleRecording r l r' ∧ q r l) (sampleRecorder extractor) tr r ∧
      p tr r = true := by
  refine exists_exec_of_scriptEnds (fun r i l r' hi => ?_) h
  obtain ⟨hadvance, hq⟩ := of_guarded hi
  exact ⟨recorderStep_of_advance executes_sampleAnswer hadvance, hq⟩

theorem exists_run {extractor : Option BaseAgent} {script : List RecorderInput}
    {p : List RecorderLabel → Recorder → Bool}
    (h : scriptEnds (Recorder.advance sampleRecording sampleAnswer) (sampleRecorder extractor) script p = true) :
    ∃ tr r, Exec (RecorderStep sampleRecording) (sampleRecorder extractor) tr r ∧ p tr r = true :=
  exists_exec_of_scriptEnds (fun _ _ _ _ hi => recorderStep_of_advance executes_sampleAnswer hi) h

end AgentOrchestrator
