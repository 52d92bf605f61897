import AgentOrchestrator.Agents.Base
import Mathlib.Data.List.Pairwise

/-!
# The supervisor and its system prompt

`synthesize` assigns the synthesis prompt to the object and never puts the planning prompt back.  So the calls of one
object all send what they are meant to send exactly if no plan is made after a synthesis (`prompts_intended_iff`).
-/

namespace AgentOrchestrator

def planningSystemPrompt : String :=
  "You are the Supervisor agent in a multi-agent orchestration system. Given a user task, break it into an ordered " ++
  "list of subtasks, each assigned to exactly one specialist: research, data_analysis, writing, or " ++
  "code_execution.\n\n" ++
  "Rules:\n" ++
  "- Every subtask needs a unique id (e.g. \"st-1\", \"st-2\").\n" ++
  "- Use `depends_on` to list the ids of subtasks that must finish first. Only depend on ids you defined earlier in " ++
  "the plan.\n" ++
  "- Keep subtasks as independent as possible so they can run in parallel when they don't depend on each other.\n" ++
  "- Set `confidence` honestly: lower it if the task is ambiguous, open-ended, or you're unsure a clean " ++
  "decomposition is possible.\n" ++
  "- Mark a subtask `sensitive=True` if it involves a financial transaction, deleting or overwriting data, or " ++
  "sending a communication externally on the user's behalf. A plan with any sensitive subtask is reviewed by a human " ++
  "before any work begins.\n"

def synthesisSystemPrompt : String :=
  "You are the Supervisor agent. All specialists have finished their subtasks and the reviewer has approved the " ++
  "results. Combine the subtask outputs into a single, coherent deliverable that directly answers the original task. " ++
  "Do not mention the internal subtask structure to the user.\n"

theorem planningSystemPrompt_ne : planningSystemPrompt ≠ synthesisSystemPrompt := by decide +kernel

namespace SupervisorAgent

/-- `SupervisorAgent(model_name)`. -/
def new (modelName : String) : BaseAgent where
  modelName := modelName
  systemPrompt := planningSystemPrompt

theorem new_systemPrompt (modelName : String) : (new modelName).systemPrompt = planningSystemPrompt := by
  unfold new
  rfl

def planPrompt (task memoryContext : String) : String :=
  "Task:\n" ++ task ++
    if memoryContext = "" then ""
    else "\n\nRelevant memory from past tasks (use it to inform this plan, but don't assume it applies verbatim):\n" ++
      memoryContext

def synthesisPrompt (task : String) (results : Dict String SubtaskResult) : String :=
  let outputs := "\n\n".intercalate (results.items.map fun e =>
    "[" ++ e.1 ++ "] (" ++ e.2.specialist.value ++ "): " ++ e.2.output.getD "None")
  "Original task:\n" ++ task ++ "\n\nSubtask outputs:\n" ++ outputs

def createPlan (dump : ExecutionPlan → String) (reply : Except LlmError (AiMessage × Option ExecutionPlan))
    (task memoryContext : String) (agent : BaseAgent) :
    List Message × Except LlmError (Option ExecutionPlan) × BaseAgent :=
  agent.structured dump reply (planPrompt task memoryContext)

def synthesize (reply : Except LlmError AiMessage) (task : String) (results : Dict String SubtaskResult)
    (agent : BaseAgent) : List Message × Except LlmError String × BaseAgent :=
  { agent with systemPrompt := synthesisSystemPrompt }.respond reply (synthesisPrompt task results)

end SupervisorAgent

/-! ### Histories of calls -/

/-- A call of a method, with what the model answers in it. -/
inductive SupervisorCall where
  | createPlan (task memoryContext : String) (reply : Except LlmError (AiMessage × Option ExecutionPlan))
  | synthesize (task : String) (results : Dict String SubtaskResult) (reply : Except LlmError AiMessage)

namespace SupervisorCall

def isSynthesis : SupervisorCall → Bool
  | createPlan _ _ _ => false
  | synthesize _ _ _ => true

/-- What the call is meant to send: the prompt of its method, and its arguments. -/
def intended : SupervisorCall → List Message
  | createPlan task memoryContext _ =>
    [.system planningSystemPrompt, .human (SupervisorAgent.planPrompt task memoryContext)]
  | synthesize task results _ =>
    [.system synthesisSystemPrompt, .human (SupervisorAgent.synthesisPrompt task results)]

/-- What the call sends, and the object after it. -/
def run (dump : ExecutionPlan → String) (agent : BaseAgent) : SupervisorCall → List Message × BaseAgent
  | createPlan task memoryContext reply =>
    let (sent, _, agent) := SupervisorAgent.createPlan dump reply task memoryContext agent
    (sent, agent)
  | synthesize task results reply =>
    let (sent, _, agent) := SupervisorAgent.synthesize reply task results agent
    (sent, agent)

end SupervisorCall

/-- The calls of one object, one after another, each with what it sends. -/
def history (dump : ExecutionPlan → String) : BaseAgent → List SupervisorCall → List (SupervisorCall × List Message)
  | _, [] => []
  | agent, call :: calls => (call, (call.run dump agent).1) :: history dump (call.run dump agent).2 calls

/-- Every call sends what it is meant to send. -/
def SendsIntended (dump : ExecutionPlan → String) (agent : BaseAgent) (calls : List SupervisorCall) : Prop :=
  ∀ sent ∈ history dump agent calls, sent.2 = sent.1.intended

theorem sendsIntended_cons {dump : ExecutionPlan → String} {agent : BaseAgent} {call : SupervisorCall}
    {calls : List SupervisorCall} : SendsIntended dump agent (call :: calls) ↔
      (call.run dump agent).1 = call.intended ∧ SendsIntended dump (call.run dump agent).2 calls := by
  simp [SendsIntended, history]

/-- A synthesis always sends what it is meant to send, and leaves its prompt behind. -/
theorem run_synthesis (dump : ExecutionPlan → String) (agent : BaseAgent) {call : SupervisorCall}
    (h : call.isSynthesis = true) : (call.run dump agent).1 = call.intended ∧
      (call.run dump agent).2.systemPrompt = synthesisSystemPrompt := by
  cases call with
  | createPlan task memoryContext reply => exact absurd h (by simp [SupervisorCall.isSynthesis])
  | synthesize task results reply => exact BaseAgent.respond_spec _ _ reply

/-- A plan is made with the prompt that is there, which stays. -/
theorem run_createPlan (dump : ExecutionPlan → String) (agent : BaseAgent) {call : SupervisorCall}
    (h : call.isSynthesis = false) : ((call.run dump agent).1 = call.intended ↔
      agent.systemPrompt = planningSystemPrompt) ∧
      (call.run dump agent).2.systemPrompt = agent.systemPrompt := by
  cases call with
  | createPlan task memoryContext reply =>
    obtain ⟨hsent, hkeep⟩ := BaseAgent.structured_spec agent
      (SupervisorAgent.planPrompt task memoryContext) dump reply
    refine ⟨?_, hkeep⟩
    show (agent.structured dump reply _).1 = _ ↔ _
    rw [hsent]
    simp [BaseAgent.messages, SupervisorCall.intended]
  | synthesize task results reply => exact absurd h (by simp [SupervisorCall.isSynthesis])

/-- Once the object holds the synthesis prompt, only a synthesis sends what it is meant to send. -/
private theorem sendsIntended_synthesizing {dump : ExecutionPlan → String} {agent : BaseAgent}
    (h : agent.systemPrompt = synthesisSystemPrompt) (calls : List SupervisorCall) :
    SendsIntended dump agent calls ↔ ∀ call ∈ calls, call.isSynthesis = true := by
  induction calls generalizing agent with
  | nil => simp [SendsIntended, history]
  | cons call calls ih =>
    rw [sendsIntended_cons, List.forall_mem_cons]
    rcases hc : call.isSynthesis with _ | _
    · -- the plan would be made with the wrong prompt
      obtain ⟨hiff, -⟩ := run_createPlan dump agent hc
      have hne : agent.systemPrompt ≠ planningSystemPrompt := by
        rw [h]
        exact planningSystemPrompt_ne.symm
      exact iff_of_false (fun hs => hne (hiff.1 hs.1)) fun hs => absurd hs.1 (by simp)
    · obtain ⟨hsent, hprompt⟩ := run_synthesis dump agent hc
      rw [ih hprompt]
      exact and_congr_left' (iff_of_true hsent rfl)

/-- No plan is made after a synthesis. -/
def PlansFirst (calls : List SupervisorCall) : Prop :=
  calls.Pairwise fun call later => call.isSynthesis = true → later.isSynthesis = true

private theorem sendsIntended_planning {dump : ExecutionPlan → String} {agent : BaseAgent}
    (h : agent.systemPrompt = planningSystemPrompt) (calls : List SupervisorCall) :
    SendsIntended dump agent calls ↔ PlansFirst calls := by
  unfold PlansFirst
  induction calls generalizing agent with
  | nil => simp [SendsIntended, history]
  | cons call calls ih =>
    rw [sendsIntended_cons, List.pairwise_cons]
    rcases hc : call.isSynthesis with _ | _
    · obtain ⟨hiff, hkeep⟩ := run_createPlan dump agent hc
      rw [ih (hkeep.trans h)]
      exact and_congr_left' (iff_of_true (hiff.2 h) fun later _ hf => absurd hf (by simp))
    · -- from here on the object holds the synthesis prompt
      obtain ⟨hsent, hprompt⟩ := run_synthesis dump agent hc
      rw [sendsIntended_synthesizing hprompt]
      constructor
      · rintro ⟨-, hall⟩
        refine ⟨fun later hl _ => hall later hl, ?_⟩
        exact List.pairwise_of_forall_mem_list fun _ _ later hl _ => hall later hl
      · rintro ⟨hall, -⟩
        exact ⟨hsent, fun later hl => hall later hl rfl⟩

/-- Planning is independent of the history exactly if no plan is made after a synthesis on the same object: then every
call sends the prompt of its method and its own arguments, and nothing else. -/
theorem prompts_intended_iff (dump : ExecutionPlan → String) (modelName : String) (calls : List SupervisorCall) :
    SendsIntended dump (SupervisorAgent.new modelName) calls ↔ PlansFirst calls :=
  sendsIntended_planning (SupervisorAgent.new_systemPrompt modelName) calls

end AgentOrchestrator
