import AgentOrchestrator.Schemas
import Mathlib.Algebra.Group.Defs

/-!
# The base of all agents

An agent object holds its system prompt and, of its most recent call, the token usage, the user prompt and the text of
the response.  A method is a function from the object before to what it sends to the model, what it returns, and the
object after; what the model answers is an argument, an error where the call raises.
-/

namespace AgentOrchestrator

/-- An exception raised by a call of the model. -/
structure LlmError where
  message : String
deriving DecidableEq, Repr

inductive Message where
  | system (content : String)
  | human (content : String)
deriving DecidableEq, Repr

/-- A raw reply of the model. -/
structure AiMessage where
  content : String
  usageMetadata : Option (Dict String Nat) := none
deriving DecidableEq

/-- The usage a reply reports: an empty one counts as missing. -/
def AiMessage.tokenUsage (message : AiMessage) : Option TokenUsage :=
  match message.usageMetadata with
  | some usage =>
    if usage.isEmpty then none
    else some {
      inputTokens := (usage.get? "input_tokens").getD 0
      outputTokens := (usage.get? "output_tokens").getD 0 }
  | none => none

namespace TokenUsage

instance : Add TokenUsage := ⟨fun u v => ⟨u.inputTokens + v.inputTokens, u.outputTokens + v.outputTokens⟩⟩

instance : Zero TokenUsage := ⟨{}⟩

@[simp] theorem inputTokens_add (u v : TokenUsage) : (u + v).inputTokens = u.inputTokens + v.inputTokens := rfl

@[simp] theorem outputTokens_add (u v : TokenUsage) : (u + v).outputTokens = u.outputTokens + v.outputTokens := rfl

@[ext] theorem ext {u v : TokenUsage} (hi : u.inputTokens = v.inputTokens) (ho : u.outputTokens = v.outputTokens) :
    u = v := by
  cases u
  cases v
  simp_all

instance : AddCommMonoid TokenUsage where
  add_assoc u v w := ext (Nat.add_assoc ..) (Nat.add_assoc ..)
  zero_add u := ext (Nat.zero_add _) (Nat.zero_add _)
  add_zero u := ext (Nat.add_zero _) (Nat.add_zero _)
  add_comm u v := ext (Nat.add_comm ..) (Nat.add_comm ..)
  nsmul := nsmulRec

theorem inputTokens_sum (l : List TokenUsage) : l.sum.inputTokens = (l.map (·.inputTokens)).sum := by
  induction l with
  | nil => rfl
  | cons u l ih => rw [List.sum_cons, List.map_cons, List.sum_cons, inputTokens_add, ih]

theorem outputTokens_sum (l : List TokenUsage) : l.sum.outputTokens = (l.map (·.outputTokens)).sum := by
  induction l with
  | nil => rfl
  | cons u l ih => rw [List.sum_cons, List.map_cons, List.sum_cons, outputTokens_add, ih]

end TokenUsage

structure BaseAgent where
  modelName : String
  systemPrompt : String
  lastUsage : Option TokenUsage := none
  lastPrompt : Option String := none
  lastResponseText : Option String := none
deriving DecidableEq

namespace BaseAgent

/-- `_record_usage`: an empty usage counts as missing. -/
def recordUsage (message : AiMessage) (agent : BaseAgent) : BaseAgent :=
  { agent with
    lastUsage :=
      match message.usageMetadata with
      | some usage =>
        if usage.isEmpty then none
        else some {
          inputTokens := (usage.get? "input_tokens").getD 0
          outputTokens := (usage.get? "output_tokens").getD 0 }
      | none => none }

/-- What `structured` and `respond` send. -/
def messages (userPrompt : String) (agent : BaseAgent) : List Message :=
  [.system agent.systemPrompt, .human userPrompt]

/-- `reply` is the raw message and the parsed object, if the message could be parsed; `dump` is `model_dump_json`. -/
def structured {α : Type} (dump : α → String) (reply : Except LlmError (AiMessage × Option α)) (userPrompt : String)
    (agent : BaseAgent) : List Message × Except LlmError (Option α) × BaseAgent :=
  let agent := { agent with lastPrompt := some userPrompt }
  match reply with
  | .error e => (agent.messages userPrompt, .error e, agent)
  | .ok (raw, parsed) =>
    (agent.messages userPrompt, .ok parsed, { agent.recordUsage raw with lastResponseText := parsed.map dump })

def respond (reply : Except LlmError AiMessage) (userPrompt : String) (agent : BaseAgent) :
    List Message × Except LlmError String × BaseAgent :=
  let agent := { agent with lastPrompt := some userPrompt }
  match reply with
  | .error e => (agent.messages userPrompt, .error e, agent)
  | .ok result =>
    (agent.messages userPrompt, .ok result.content,
      { agent.recordUsage result with lastResponseText := some result.content })

variable (agent : BaseAgent) (userPrompt : String)

/-- `structured` sends the system prompt of the object and keeps it. -/
theorem structured_spec {α : Type} (dump : α → String) (reply : Except LlmError (AiMessage × Option α)) :
    (agent.structured dump reply userPrompt).1 = agent.messages userPrompt ∧
      (agent.structured dump reply userPrompt).2.2.systemPrompt = agent.systemPrompt := by
  rcases reply with e | ⟨raw, parsed⟩
  · exact ⟨rfl, rfl⟩
  · exact ⟨rfl, rfl⟩

/-- `respond` sends the system prompt of the object and keeps it. -/
theorem respond_spec (reply : Except LlmError AiMessage) :
    (agent.respond reply userPrompt).1 = agent.messages userPrompt ∧
      (agent.respond reply userPrompt).2.2.systemPrompt = agent.systemPrompt := by
  rcases reply with e | result
  · exact ⟨rfl, rfl⟩
  · exact ⟨rfl, rfl⟩

end BaseAgent

end AgentOrchestrator
