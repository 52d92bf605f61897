import AgentOrchestrator.Agents.Base
import AgentOrchestrator.Lib.Body

/-!
# Specialists

A specialist runs a small tool-calling loop and hands back a result, whatever the model and the tools do.  Its object
may be used by several branches of the graph at the same time, so `run` is a program in which every access to an
attribute of the object or to the call log of the tool registry is a command, as is every call of the model or of a tool.
-/

namespace AgentOrchestrator

/-- A call of a tool that a model asks for; `args` is the JSON text of the arguments. -/
structure ToolCall where
  id : String
  name : String
  args : String
deriving DecidableEq

/-- A raw reply of a model that may ask for tools. -/
structure ToolCallingMessage extends AiMessage where
  toolCalls : List ToolCall := []
deriving DecidableEq

/-- A message of the conversation of a specialist with its model. -/
inductive Turn where
  | system (content : String)
  | human (content : String)
  | ai (message : ToolCallingMessage)
  | tool (content toolCallId : String)
deriving DecidableEq

/-- An agent object: one of the orchestrator, one for each type, or the one of a job in its worker. -/
inductive AgentRef where
  | inProcess (specialist : SpecialistType)
  | worker (job : Nat)
deriving DecidableEq

/-- The tool registry of the object: that of the orchestrator, or the one of the job. -/
def AgentRef.registry : AgentRef → Option Nat
  | .inProcess _ => none
  | .worker job => some job

/-- What does not change about a specialist; `lcTools` has the names of its tools. -/
structure SpecialistAgent where
  ref : AgentRef
  specialistType : SpecialistType
  modelName : String
  lcTools : List String
deriving DecidableEq

namespace SpecialistAgent

def degradeGracefully : String :=
  " Only call a tool if you have a concrete reason to think it will return " ++
  "something useful -- don't call file/database tools speculatively hoping " ++
  "data happens to exist there. If a tool doesn't have what you need after " ++
  "one or two tries, stop searching and answer from your own knowledge " ++
  "instead, clearly noting where you're estimating or uncertain rather " ++
  "than leaving the subtask unanswered."

def systemPrompts : SpecialistType → String
  | .research =>
    "You are the Research specialist. Use the tools available to you to " ++
    "gather facts needed for the subtask, then summarize what you found." ++ degradeGracefully
  | .dataAnalysis =>
    "You are the Data Analysis specialist. Use the tools available to you " ++
    "to query, compute, or transform data, then report your findings." ++ degradeGracefully
  | .writing =>
    "You are the Writing specialist. Produce clear, well-structured prose " ++
    "that satisfies the subtask's expected output format."
  | .codeExecution =>
    "You are the Code Execution specialist. Write and run code to satisfy " ++
    "the subtask, then report the result." ++ degradeGracefully

def maxToolIterations : Nat := 4

def userPrompt (subtask : SubTask) (context : Dict String SubtaskResult) (feedback : Option String) : String :=
  let dependencyContext := "\n".intercalate ((context.items.filter fun e => e.1 ∈ subtask.dependsOn).map fun e =>
    "[" ++ e.1 ++ "] " ++ e.2.output.getD "None")
  let inputs := ", ".intercalate subtask.requiredInputs
  "Subtask: " ++ subtask.description ++ "\n" ++
  "Required inputs: " ++ (if inputs = "" then "none" else inputs) ++ "\n" ++
  "Expected output format: " ++ subtask.expectedOutputFormat ++ "\n" ++
  (if dependencyContext = "" then "" else "\nOutputs from dependency subtasks:\n" ++ dependencyContext) ++
  ((feedback.filter fun f => f ≠ "").map fun f =>
    "\n\nThis is a retry. Feedback on the previous attempt:\n" ++ f ++
      "\nAddress this feedback in your new attempt.").getD ""

def answerNow : String :=
  "You must answer now, using only what you've already " ++
  "gathered above -- no more tool calls are available. If you " ++
  "couldn't find the specific information requested, give your " ++
  "best answer from general knowledge and say so plainly."

/-! ### Commands -/

/-- What an agent object keeps of its most recent call. -/
structure LastCall where
  usage : Option TokenUsage := none
  prompt : Option String := none
  responseText : Option String := none
deriving DecidableEq

/-- An attribute with its new value. -/
inductive Attribute where
  | usage (value : Option TokenUsage)
  | prompt (value : Option String)
  | responseText (value : Option String)
deriving DecidableEq

/-- The name of an attribute. -/
inductive AttributeName where
  | usage
  | prompt
  | responseText
deriving DecidableEq

def Attribute.name : Attribute → AttributeName
  | .usage _ => .usage
  | .prompt _ => .prompt
  | .responseText _ => .responseText

abbrev AttributeName.Value : AttributeName → Type
  | .usage => Option TokenUsage
  | .prompt => Option String
  | .responseText => Option String

def LastCall.get (last : LastCall) : (name : AttributeName) → name.Value
  | .usage => last.usage
  | .prompt => last.prompt
  | .responseText => last.responseText

def LastCall.set (last : LastCall) : Attribute → LastCall
  | .usage value => { last with usage := value }
  | .prompt value => { last with prompt := value }
  | .responseText value => { last with responseText := value }

/-- What comes of waiting for a job. -/
inductive Wait where
  | answered
  | lost (message : String)
  | timedOut
deriving DecidableEq

/-- `bindTools`, `invoke` and `structured` are calls of the model, `useTool` is the call of a tool up to the moment at
which it is logged; `newAgent` and `newRegistry` are what the task of a worker makes before it starts, and `awaitJob` is
the wait of the orchestrator for it. -/
inductive Command where
  | now
  | awaitJob (agent : AgentRef)
  | newRegistry (registry : Option Nat)
  | newAgent (agent : AgentRef) (modelName : String)
  | bindTools (agent : AgentRef)
  | invoke (agent : AgentRef) (withTools : Bool) (messages : List Turn)
  | structured (agent : AgentRef) (messages : List Turn)
  | useTool (agent : AgentRef) (specialist : SpecialistType) (call : ToolCall)
  | readLog (registry : Option Nat)
  | appendLog (registry : Option Nat) (log : ToolCallLog)
  | read (agent : AgentRef) (name : AttributeName)
  | write (agent : AgentRef) (edit : Attribute)
deriving DecidableEq

def Response : Command → Type
  | .now => ℚ
  | .awaitJob _ => Wait
  | .newRegistry _ => Unit
  | .newAgent _ _ => Except LlmError Unit
  | .bindTools _ => Except LlmError Unit
  | .invoke _ _ _ => Except LlmError ToolCallingMessage
  | .structured _ _ => Except LlmError (AiMessage × Option SpecialistOutput)
  | .useTool _ _ _ => Except String ToolCallLog
  | .readLog _ => List ToolCallLog
  | .appendLog _ _ => Unit
  | .read _ name => name.Value
  | .write _ _ => Unit

/-- The agent objects and the call logs. -/
structure Workshop where
  agents : AgentRef → LastCall
  callLogs : Option Nat → List ToolCallLog

/-- The model and the tools may answer anything. -/
def Executes : (c : Command) → Workshop → Response c → Workshop → Prop
  | .now, w, _, w' => w' = w
  | .awaitJob _, w, _, w' => w' = w
  | .newRegistry registry, w, _, w' => w' = { w with callLogs := Function.update w.callLogs registry [] }
  | .newAgent agent _, w, r, w' =>
    match r with
    | .ok _ => w' = { w with agents := Function.update w.agents agent {} }
    | .error _ => w' = w
  | .bindTools _, w, _, w' => w' = w
  | .invoke _ _ _, w, _, w' => w' = w
  | .structured _ _, w, _, w' => w' = w
  | .useTool _ _ _, w, _, w' => w' = w
  | .readLog registry, w, r, w' => r = w.callLogs registry ∧ w' = w
  | .appendLog registry log, w, _, w' =>
    w' = { w with callLogs := Function.update w.callLogs registry (w.callLogs registry ++ [log]) }
  | .read agent name, w, r, w' => r = (w.agents agent).get name ∧ w' = w
  | .write agent edit, w, _, w' =>
    w' = { w with agents := Function.update w.agents agent ((w.agents agent).set edit) }

abbrev Program (α : Type) := Prog Command Response α

/-! ### The run of a specialist -/

/-- The local variables of `run`. -/
structure Attempt where
  messages : List Turn
  toolCallsMade : List ToolCallLog := []
  totalUsage : TokenUsage := 0

/-- The body of the `try` statement in `run`. -/
abbrev Body (α : Type) := Prog.Body Command Response Attempt String α

/-- An exception of an attribute access on `None`. -/
def noAttribute (name : String) : String := "'NoneType' object has no attribute '" ++ name ++ "'"

/-- `last_usage`, read once to see whether it is there and once for each of its numbers. -/
def readUsage {L : Type} (agent : AgentRef) : Prog.Body Command Response L String (Option TokenUsage) := do
  let usage : Option TokenUsage ← Prog.Body.send (Command.read agent .usage)
  match usage with
  | none => return none
  | some _ =>
    let usage : Option TokenUsage ← Prog.Body.send (Command.read agent .usage)
    match usage with
    | none => throw (noAttribute "input_tokens")
    | some u =>
      let usage : Option TokenUsage ← Prog.Body.send (Command.read agent .usage)
      match usage with
      | none => throw (noAttribute "output_tokens")
      | some v => return some { inputTokens := u.inputTokens, outputTokens := v.outputTokens }

def recordUsage (agent : AgentRef) (message : AiMessage) : Body Unit :=
  Prog.Body.send (Command.write agent (.usage message.tokenUsage))

def accumulate (agent : AgentRef) : Body Unit := do
  match ← readUsage agent with
  | none => return ()
  | some u => modify fun a => { a with totalUsage := a.totalUsage + u }

def append (turn : Turn) : Body Unit := modify fun a => { a with messages := a.messages ++ [turn] }

/-- One call of the model, with its usage. -/
def invoke (agent : SpecialistAgent) (withTools : Bool) : Body ToolCallingMessage := do
  let a ← get
  let reply : Except LlmError ToolCallingMessage ← Prog.Body.send (Command.invoke agent.ref withTools a.messages)
  match reply with
  | .error e => throw e.message
  | .ok message =>
    recordUsage agent.ref message.toAiMessage
    accumulate agent.ref
    append (.ai message)
    return message

/-- The runner of a tool: the text for the model. -/
def useTool (agent : SpecialistAgent) (call : ToolCall) : Body String := do
  let used : Except String ToolCallLog ← Prog.Body.send (Command.useTool agent.ref agent.specialistType call)
  match used with
  | .error e => return "ERROR: " ++ e
  | .ok log =>
    let _ : Unit ← Prog.Body.send (Command.appendLog agent.ref.registry log)
    if log.success then
      return log.output.getD ""
    else
      return "ERROR: " ++ (log.error.filter fun e => e ≠ "").getD ("Tool '" ++ call.name ++ "' failed.")

def callTool (agent : SpecialistAgent) (call : ToolCall) : Body Unit := do
  let before : List ToolCallLog ← Prog.Body.send (Command.readLog agent.ref.registry)
  if call.name ∈ agent.lcTools then
    let result ← useTool agent call
    let after : List ToolCallLog ← Prog.Body.send (Command.readLog agent.ref.registry)
    modify fun a => { a with toolCallsMade := a.toolCallsMade ++ after.drop before.length }
    append (.tool result call.id)
  else
    -- a tool name the model has made up
    append (.tool ("ERROR: no such tool '" ++ call.name ++ "'.") call.id)

/-- The `for` loop: whether the model has settled on an answer. -/
def toolLoop (agent : SpecialistAgent) : Nat → Body Bool
  | 0 => return false
  | n + 1 => do
    let message ← invoke agent true
    if message.toolCalls = [] then
      return true
    else
      message.toolCalls.forM (callTool agent)
      toolLoop agent n

def finalAnswer (agent : SpecialistAgent) : Body SpecialistOutput := do
  let a ← get
  let final : Except LlmError (AiMessage × Option SpecialistOutput) ←
    Prog.Body.send (Command.structured agent.ref a.messages)
  match final with
  | .error e => throw e.message
  | .ok (raw, parsed) =>
    recordUsage agent.ref raw
    accumulate agent.ref
    let a ← get
    let _ : Unit ← Prog.Body.send (Command.write agent.ref (.usage (some a.totalUsage)))
    match parsed with
    | none => throw (noAttribute "output")
    | some output =>
      let _ : Unit ← Prog.Body.send (Command.write agent.ref (.responseText (some output.output)))
      return output

def bindTools (agent : SpecialistAgent) : Body Unit := do
  if agent.lcTools ≠ [] then
    let bound : Except LlmError Unit ← Prog.Body.send (Command.bindTools agent.ref)
    match bound with
    | .error e => throw e.message
    | .ok _ => return ()

def body (agent : SpecialistAgent) : Body SpecialistOutput := do
  bindTools agent
  let settled ← toolLoop agent maxToolIterations
  if settled then
    finalAnswer agent
  else do
    append (.human answerNow)
    let _ ← invoke agent false
    finalAnswer agent

def run (agent : SpecialistAgent) (subtask : SubTask) (context : Dict String SubtaskResult) (feedback : Option String) :
    Program SubtaskResult := do
  let prompt := userPrompt subtask context feedback
  Prog.perform (Command.write agent.ref (.prompt (some prompt)))
  match ← (body agent).attempt { messages := [.system (systemPrompts agent.specialistType), .human prompt] } with
  | (.ok output, a) =>
    return {
      subtaskId := subtask.id
      specialist := agent.specialistType
      success := true
      output := some output.output
      confidence := output.confidence
      toolCalls := a.toolCallsMade }
  | (.error e, a) => do
    Prog.perform (Command.write agent.ref (.usage (some a.totalUsage)))
    return {
      subtaskId := subtask.id
      specialist := agent.specialistType
      success := false
      error := some e
      toolCalls := a.toolCallsMade
      confidence := ⟨0, by norm_num⟩ }

end SpecialistAgent

end AgentOrchestrator
