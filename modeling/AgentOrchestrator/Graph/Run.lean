import AgentOrchestrator.Graph.Build
import AgentOrchestrator.Lib.Exec
import AgentOrchestrator.Lib.Fallible

/-!
# Runs of the graph

A configuration is the state of the channels and what runs next.  `step` runs it: the node about to run gets the reply
of its agent or of the human, its update is written into the channels, and its edge or router decides what comes
after; a batch of `run_specialist` branches is one step, its updates merged in the order of the batch.  Each step
leaves an `Event`.  `Fires` lists what a step can do, node by node, and `fires_of_step` says that `step` does nothing
else; every later fact about runs is proved by cases on `Fires`.
-/

namespace AgentOrchestrator

open Fallible

/-- What a node execution leaves in the history of a run. -/
inductive Event where
  | intake
  | planTask (task memoryContext : String) (plan : ExecutionPlan)
  | routeBatch
  | specialists (runs : List SpecialistRun)
  | review (completed : Dict String SubtaskResult) (result : ReviewResult)
  | applyReviewFeedback (update : Dict String (Option SubtaskResult))
  | notifyHuman
  | synthesize (completed : Dict String SubtaskResult) (text : String)
  | deliver (record : Option MemoryRecord)
  | rejectTask
  | humanEscalation (source : EscalationSource) (escalation : EscalationRequest) (decision : HumanDecision)
  | applyHumanDecision (source : EscalationSource) (decision : HumanDecision)
      (update : Dict String (Option SubtaskResult))
deriving DecidableEq

/-- What an agent, the human or the environment answers in one step. -/
inductive Reply where
  | intake (uuid : String) (memories : Option (List MemoryRecord))
  | plan (plan : ExecutionPlan)
  | results (result : String → SubtaskResult)
  | review (result : ReviewResult)
  | synthesis (text : String)
  | memory (memory : Option (String × ℚ × ExtractedMemory))
  | decision (decision : HumanDecision)
  | none

structure Config where
  state : OrchestratorState
  next : Next

/-- A run starts before `intake`. -/
def start (s : OrchestratorState) : Config := ⟨s, .node .intake⟩

/-- Write the updates of a batch, in order. -/
def applyAll (s : OrchestratorState) (us : List Update) : OrchestratorState := us.foldl OrchestratorState.apply s

/-- Run a batch of branches on the results of their specialists. -/
def runBatch (result : String → SubtaskResult) (batch : List SendPayload) :
    Except RunError (List (SpecialistRun × Update)) :=
  batch.mapM fun p => runSpecialist (result p.subtaskId) p

/-- One step of the graph. -/
def step (cfg : Settings) (c : Config) (r : Reply) : Except RunError (Event × Config) :=
  let s := c.state
  match c.next, r with
  | .node .intake, .intake uuid memories =>
    return (.intake, ⟨s.apply (intake uuid memories s), .node .planTask⟩)
  | .node .planTask, .plan plan => do
    let s' := s.apply (planTask plan)
    return (.planTask s.task (s.memoryContext.getD "") plan, ⟨s', ← routeAfterPlan cfg s'⟩)
  | .node .routeBatch, .none =>
    return (.routeBatch, ⟨s, ← decideNextBatch cfg s⟩)
  | .send batch, .results result => do
    let branches ← runBatch result batch
    return (.specialists (branches.map Prod.fst), ⟨applyAll s (branches.map Prod.snd), .node .routeBatch⟩)
  | .node .review, .review result => do
    let s' := s.apply (review result s)
    return (.review s.completed result, ⟨s', ← routeAfterReview cfg s'⟩)
  | .node .applyReviewFeedback, .none => do
    let u ← applyReviewFeedback s
    return (.applyReviewFeedback u.completed, ⟨s.apply u, .node .routeBatch⟩)
  | .node .notifyHuman, .none =>
    return (.notifyHuman, ⟨s.apply (← notifyHuman cfg s), .node .synthesize⟩)
  | .node .synthesize, .synthesis text =>
    return (.synthesize s.completed text, ⟨s.apply (synthesize text), .node .deliver⟩)
  | .node .deliver, .memory memory => do
    let (record, u) ← deliver memory s
    return (.deliver record, ⟨s.apply u, .finish⟩)
  | .node .rejectTask, .none =>
    return (.rejectTask, ⟨s.apply rejectTask, .finish⟩)
  | .node .humanEscalation, .decision decision => do
    let (escalation, source) ← escalate cfg s
    let u ← humanEscalation cfg decision s
    return (.humanEscalation source escalation decision, ⟨s.apply u, .node .applyHumanDecision⟩)
  | .node .applyHumanDecision, .none => do
    let decision ← require "human_decision" s.humanDecision
    let source ← require "escalation_source" s.escalationSource
    let u ← applyHumanDecision s
    let s' := s.apply u
    return (.applyHumanDecision source decision u.completed, ⟨s', ← routeAfterDecision s'⟩)
  | _, _ => .error .unfit

/-- A step with some reply. -/
def Step (cfg : Settings) (c : Config) (e : Event) (c' : Config) : Prop := ∃ r, step cfg c r = .ok (e, c')

/-! ### What a step can do -/

/-- The steps of the graph, one constructor for each node. -/
inductive Fires (cfg : Settings) : Config → Event → Config → Prop
  | intake {s : OrchestratorState} (uuid : String) (memories : Option (List MemoryRecord)) :
      Fires cfg ⟨s, .node .intake⟩ .intake ⟨s.apply (intake uuid memories s), .node .planTask⟩
  | planTask {s : OrchestratorState} (plan : ExecutionPlan) {n : Next}
      (hn : routeAfterPlan cfg (s.apply (planTask plan)) = .ok n) :
      Fires cfg ⟨s, .node .planTask⟩ (.planTask s.task (s.memoryContext.getD "") plan) ⟨s.apply (planTask plan), n⟩
  | routeBatch {s : OrchestratorState} {n : Next} (hn : decideNextBatch cfg s = .ok n) :
      Fires cfg ⟨s, .node .routeBatch⟩ .routeBatch ⟨s, n⟩
  | specialists {s : OrchestratorState} {batch : List SendPayload} (result : String → SubtaskResult)
      {branches : List (SpecialistRun × Update)} (hb : runBatch result batch = .ok branches) :
      Fires cfg ⟨s, .send batch⟩ (.specialists (branches.map Prod.fst))
        ⟨applyAll s (branches.map Prod.snd), .node .routeBatch⟩
  | review {s : OrchestratorState} (result : ReviewResult) {n : Next}
      (hn : routeAfterReview cfg (s.apply (review result s)) = .ok n) :
      Fires cfg ⟨s, .node .review⟩ (.review s.completed result) ⟨s.apply (review result s), n⟩
  | applyReviewFeedback {s : OrchestratorState} {u : Update} (hu : applyReviewFeedback s = .ok u) :
      Fires cfg ⟨s, .node .applyReviewFeedback⟩ (.applyReviewFeedback u.completed) ⟨s.apply u, .node .routeBatch⟩
  | notifyHuman {s : OrchestratorState} {u : Update} (hu : notifyHuman cfg s = .ok u) :
      Fires cfg ⟨s, .node .notifyHuman⟩ .notifyHuman ⟨s.apply u, .node .synthesize⟩
  | synthesize {s : OrchestratorState} (text : String) :
      Fires cfg ⟨s, .node .synthesize⟩ (.synthesize s.completed text) ⟨s.apply (synthesize text), .node .deliver⟩
  | deliver {s : OrchestratorState} (memory : Option (String × ℚ × ExtractedMemory)) {record : Option MemoryRecord}
      {u : Update} (hu : deliver memory s = .ok (record, u)) :
      Fires cfg ⟨s, .node .deliver⟩ (.deliver record) ⟨s.apply u, .finish⟩
  | rejectTask {s : OrchestratorState} :
      Fires cfg ⟨s, .node .rejectTask⟩ .rejectTask ⟨s.apply rejectTask, .finish⟩
  | humanEscalation {s : OrchestratorState} (decision : HumanDecision) {escalation : EscalationRequest}
      {source : EscalationSource} (he : escalate cfg s = .ok (escalation, source)) :
      Fires cfg ⟨s, .node .humanEscalation⟩ (.humanEscalation source escalation decision)
        ⟨s.apply {
            escalation := some escalation
            escalationSource := some source
            humanDecision := some decision },
          .node .applyHumanDecision⟩
  | applyHumanDecision {s : OrchestratorState} {decision : HumanDecision} {source : EscalationSource} {u : Update}
      {n : Next} (hd : s.humanDecision = some decision) (hs : s.escalationSource = some source)
      (hu : applyHumanDecision s = .ok u) (hn : routeAfterDecision (s.apply u) = .ok n) :
      Fires cfg ⟨s, .node .applyHumanDecision⟩ (.applyHumanDecision source decision u.completed) ⟨s.apply u, n⟩

theorem require_eq_ok {α : Type} {key : String} {o : Option α} {a : α} :
    require key o = .ok a ↔ o = some a := by
  rcases o with _ | b <;> simp [require]

/-- The inversion of `step`: whatever it does is one of the cases of `Fires`. -/
theorem fires_of_step {cfg : Settings} {c c' : Config} {r : Reply} {e : Event} (h : step cfg c r = .ok (e, c')) :
    Fires cfg c e c' := by
  obtain ⟨s, next⟩ := c
  unfold step at h
  dsimp only at h
  split at h
  · obtain ⟨rfl, rfl⟩ := Prod.mk.inj (Except.ok.inj h)
    exact .intake _ _
  · obtain ⟨n, hn, h⟩ := bind_eq_ok_iff.1 h
    obtain ⟨rfl, rfl⟩ := Prod.mk.inj (Except.ok.inj h)
    exact .planTask _ hn
  · obtain ⟨n, hn, h⟩ := bind_eq_ok_iff.1 h
    obtain ⟨rfl, rfl⟩ := Prod.mk.inj (Except.ok.inj h)
    exact .routeBatch hn
  · obtain ⟨branches, hb, h⟩ := bind_eq_ok_iff.1 h
    obtain ⟨rfl, rfl⟩ := Prod.mk.inj (Except.ok.inj h)
    exact .specialists _ hb
  · obtain ⟨n, hn, h⟩ := bind_eq_ok_iff.1 h
    obtain ⟨rfl, rfl⟩ := Prod.mk.inj (Except.ok.inj h)
    exact .review _ hn
  · obtain ⟨u, hu, h⟩ := bind_eq_ok_iff.1 h
    obtain ⟨rfl, rfl⟩ := Prod.mk.inj (Except.ok.inj h)
    exact .applyReviewFeedback hu
  · obtain ⟨u, hu, h⟩ := bind_eq_ok_iff.1 h
    obtain ⟨rfl, rfl⟩ := Prod.mk.inj (Except.ok.inj h)
    exact .notifyHuman hu
  · obtain ⟨rfl, rfl⟩ := Prod.mk.inj (Except.ok.inj h)
    exact .synthesize _
  · obtain ⟨⟨record, u⟩, hu, h⟩ := bind_eq_ok_iff.1 h
    obtain ⟨rfl, rfl⟩ := Prod.mk.inj (Except.ok.inj h)
    exact .deliver _ hu
  · obtain ⟨rfl, rfl⟩ := Prod.mk.inj (Except.ok.inj h)
    exact .rejectTask
  · obtain ⟨⟨escalation, source⟩, he, h⟩ := bind_eq_ok_iff.1 h
    obtain ⟨u, hu, h⟩ := bind_eq_ok_iff.1 h
    obtain ⟨rfl, rfl⟩ := Prod.mk.inj (Except.ok.inj h)
    unfold humanEscalation at hu
    rw [he] at hu
    obtain rfl := Except.ok.inj hu
    exact .humanEscalation _ he
  · obtain ⟨decision, hd, h⟩ := bind_eq_ok_iff.1 h
    obtain ⟨source, hs, h⟩ := bind_eq_ok_iff.1 h
    obtain ⟨u, hu, h⟩ := bind_eq_ok_iff.1 h
    obtain ⟨n, hn, h⟩ := bind_eq_ok_iff.1 h
    obtain ⟨rfl, rfl⟩ := Prod.mk.inj (Except.ok.inj h)
    exact .applyHumanDecision (require_eq_ok.1 hd) (require_eq_ok.1 hs) hu hn
  · exact absurd h (by simp)

theorem Step.fires {cfg : Settings} {c c' : Config} {e : Event} (h : Step cfg c e c') : Fires cfg c e c' := by
  obtain ⟨r, hr⟩ := h
  exact fires_of_step hr

/-- Conversely every case of `Fires` is a step. -/
theorem Fires.step {cfg : Settings} {c c' : Config} {e : Event} (h : Fires cfg c e c') : Step cfg c e c' := by
  cases h with
  | intake uuid memories => exact ⟨.intake uuid memories, rfl⟩
  | planTask plan hn => exact ⟨.plan plan, by simp [AgentOrchestrator.step, hn]⟩
  | routeBatch hn => exact ⟨.none, by simp [AgentOrchestrator.step, hn]⟩
  | specialists result hb => exact ⟨.results result, by simp [AgentOrchestrator.step, hb]⟩
  | review result hn => exact ⟨.review result, by simp [AgentOrchestrator.step, hn]⟩
  | applyReviewFeedback hu => exact ⟨.none, by simp [AgentOrchestrator.step, hu]⟩
  | notifyHuman hu => exact ⟨.none, by simp [AgentOrchestrator.step, hu]⟩
  | synthesize text => exact ⟨.synthesis text, rfl⟩
  | deliver memory hu => exact ⟨.memory memory, by simp [AgentOrchestrator.step, hu]⟩
  | rejectTask => exact ⟨.none, rfl⟩
  | humanEscalation decision he =>
    refine ⟨.decision decision, ?_⟩
    simp only [AgentOrchestrator.step, AgentOrchestrator.humanEscalation, he]
    rfl
  | applyHumanDecision hd hs hu hn =>
    refine ⟨.none, ?_⟩
    simp only [AgentOrchestrator.step, require, hd, hs, hu]
    simp only [bind, Except.bind, hn]
    rfl

/-! ### Small plans and replies, for concrete runs -/

def sampleSubtask (id : String) (dependsOn : List String) : SubTask where
  id := id
  description := "Work on " ++ id
  specialist := .research
  dependsOn := dependsOn
  expectedOutputFormat := "text"
  estimatedComplexity := ⟨1, by norm_num⟩

def samplePlan (subtasks : List SubTask) : ExecutionPlan where
  goal := "Write a report"
  subtasks := subtasks
  confidence := ⟨9 / 10, by norm_num⟩
  reasoning := "One step after another."

def sampleResult (success : Bool) (sid : String) : SubtaskResult where
  subtaskId := sid
  specialist := .research
  success := success
  output := if success then some ("Output of " ++ sid) else none

def sampleReview (approved : Bool) (subtasksToRedo : List String) : ReviewResult where
  approved := approved
  score := ⟨8 / 10, by norm_num⟩
  feedback := "Cite sources."
  subtasksToRedo := subtasksToRedo

def sampleStart : OrchestratorState where
  task := "Report"

theorem fresh_sampleStart : Fresh sampleStart := ⟨rfl, rfl, rfl, rfl⟩

/-- A plan that needs approval. -/
def sensitivePlan : ExecutionPlan := samplePlan [{ sampleSubtask "a" [] with sensitive := true }]

/-- The state right after `sensitivePlan` has been made. -/
def sensitivePlanned : OrchestratorState :=
  (sampleStart.apply (intake "t" none sampleStart)).apply (planTask sensitivePlan)

theorem step_intake_sample : Step Settings.default (start sampleStart) .intake
    ⟨sampleStart.apply (intake "t" none sampleStart), .node .planTask⟩ := (Fires.intake "t" none).step

theorem step_sensitivePlan : Step Settings.default ⟨sampleStart.apply (intake "t" none sampleStart), .node .planTask⟩
    (.planTask "Report" "" sensitivePlan) ⟨sensitivePlanned, .node .humanEscalation⟩ := by
  have hroute : routeAfterPlan Settings.default sensitivePlanned = .ok (.node .humanEscalation) := by decide +kernel
  exact (Fires.planTask sensitivePlan hroute).step

theorem escalate_sensitivePlanned :
    ∃ escalation, escalate Settings.default sensitivePlanned = .ok (escalation, .planSensitive) := by
  have hsource : (escalate Settings.default sensitivePlanned).map Prod.snd = .ok .planSensitive := by decide +kernel
  rcases he : escalate Settings.default sensitivePlanned with x | ⟨escalation, source⟩
  · rw [he] at hsource
    exact absurd hsource (by simp [Except.map])
  · rw [he] at hsource
    obtain rfl : source = .planSensitive := Except.ok.inj hsource
    exact ⟨escalation, rfl⟩

end AgentOrchestrator
