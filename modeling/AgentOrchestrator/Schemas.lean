import AgentOrchestrator.Lib.Dict
import Mathlib.Data.Rat.Defs
import Mathlib.Tactic.NormNum

/-!
# Schemas

The data exchanged by the supervisor, the specialists, the reviewer, the human and the graph.  A bound that the
schema enforces is part of the type (`Score`, `Complexity`), so a value that would be a validation error cannot be
written down.
-/

namespace AgentOrchestrator

/-- A float with `ge=0.0, le=1.0`. -/
abbrev Score := {q : ℚ // 0 ≤ q ∧ q ≤ 1}

theorem half_isScore : (0 : ℚ) ≤ 1 / 2 ∧ (1 / 2 : ℚ) ≤ 1 := by norm_num

/-- An int with `ge=1, le=5`. -/
abbrev Complexity := {n : Nat // 1 ≤ n ∧ n ≤ 5}

inductive SpecialistType where
  | research
  | dataAnalysis
  | writing
  | codeExecution
deriving DecidableEq, Repr

/-- The `value` of the enumeration. -/
def SpecialistType.value : SpecialistType → String
  | .research => "research"
  | .dataAnalysis => "data_analysis"
  | .writing => "writing"
  | .codeExecution => "code_execution"

structure SubTask where
  id : String
  description : String
  specialist : SpecialistType
  requiredInputs : List String := []
  dependsOn : List String := []
  expectedOutputFormat : String
  estimatedComplexity : Complexity
  sensitive : Bool := false
deriving DecidableEq

structure ExecutionPlan where
  goal : String
  subtasks : List SubTask
  confidence : Score
  reasoning : String
deriving DecidableEq

structure TokenUsage where
  inputTokens : Nat := 0
  outputTokens : Nat := 0
deriving DecidableEq, Repr

/-- One tool invocation; `inputs` is the JSON text of the arguments. -/
structure ToolCallLog where
  toolName : String
  inputs : String
  output : Option String := none
  success : Bool
  latencyMs : ℚ
  error : Option String := none
deriving DecidableEq, Repr

structure SubtaskResult where
  subtaskId : String
  specialist : SpecialistType
  success : Bool
  output : Option String := none
  confidence : Score := ⟨1 / 2, half_isScore⟩
  toolCalls : List ToolCallLog := []
  error : Option String := none
deriving DecidableEq

/-- What a specialist's model answers. -/
structure SpecialistOutput where
  output : String
  confidence : Score
deriving DecidableEq

structure ReviewResult where
  approved : Bool
  score : Score
  feedback : String
  subtasksToRedo : List String := []
  requiresHumanReview : Bool := false
deriving DecidableEq

inductive EscalationLevel where
  | notify
  | approveAction
  | approvePlan
  | takeOver
deriving DecidableEq, Repr

/-- The keys the graph puts into the `context` of an escalation. -/
structure EscalationContext where
  task : String
  userId : Option String := none
  plan : Option ExecutionPlan := none
  completed : Option (Dict String SubtaskResult) := none
  review : Option ReviewResult := none
  memoryContext : Option String := none
  stuckSubtaskIds : Option (List String) := none
deriving DecidableEq

structure EscalationRequest where
  level : EscalationLevel
  reason : String
  context : EscalationContext
deriving DecidableEq

inductive DecisionAction where
  | approve
  | reject
  | modify
  | takeOver
deriving DecidableEq, Repr

structure HumanDecision where
  action : DecisionAction
  feedback : Option String := none
  output : Option String := none
deriving DecidableEq, Repr

/-- Which trigger caused an escalation. -/
inductive EscalationSource where
  | planLowConfidence
  | planSensitive
  | planRequested
  | specialistRetry
  | reviewSensitive
  | reviewExhausted
  | reviewLowScoreNotify
deriving DecidableEq, Repr

/-- The name of the trigger, as the graph has it. -/
def EscalationSource.value : EscalationSource → String
  | .planLowConfidence => "plan_low_confidence"
  | .planSensitive => "plan_sensitive"
  | .planRequested => "plan_requested"
  | .specialistRetry => "specialist_retry"
  | .reviewSensitive => "review_sensitive"
  | .reviewExhausted => "review_exhausted"
  | .reviewLowScoreNotify => "review_low_score_notify"

/-- What the memory extractor's model answers. -/
structure ExtractedMemory where
  approachSummary : String
  facts : List String := []
  preferences : List String := []
  importance : Score
deriving DecidableEq

/-- One past task in long-term memory; times are seconds. -/
structure MemoryRecord where
  id : String
  userId : String
  task : String
  approachSummary : String
  toolsUsed : List String := []
  facts : List String := []
  preferences : List String := []
  success : Bool := true
  importance : Score := ⟨1 / 2, half_isScore⟩
  accessCount : Int := 0
  createdAt : ℚ
  lastAccessedAt : ℚ
deriving DecidableEq

/-- The settings the graph reads; `reviewScoreThresholdText` is the threshold as Python prints it. -/
structure Settings where
  planConfidenceThreshold : ℚ
  reviewScoreThreshold : ℚ
  reviewScoreThresholdText : String
  maxSpecialistRetries : Int
  maxReviewCycles : Int

/-- The defaults of `config.py`. -/
def Settings.default : Settings where
  planConfidenceThreshold := 6 / 10
  reviewScoreThreshold := 7 / 10
  reviewScoreThresholdText := "0.7"
  maxSpecialistRetries := 2
  maxReviewCycles := 2

end AgentOrchestrator
