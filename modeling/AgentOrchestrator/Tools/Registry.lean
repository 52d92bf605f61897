import AgentOrchestrator.Lib.Window
import AgentOrchestrator.Schemas
import Mathlib.Data.Rat.Defs
import Mathlib.Algebra.Order.Ring.Rat

/-!
# The tool registry

Every tool an agent can call is registered with the specialists that may use it and a rate limit.  What the functions of
the tools work on is a state `W` of any kind, and a call reads the clock three times: where its rate limit is checked,
and before and after the function runs.
-/

namespace AgentOrchestrator

/-- The exceptions that the registry raises itself. -/
inductive ToolError where
  | alreadyRegistered (name : String)
  | toolNotFound (toolName : String)
  | toolNotAllowed (specialist : SpecialistType) (toolName : String)
  | rateLimitExceeded (name : String) (rateLimitPerMinute : Nat)
deriving DecidableEq

def ToolError.message : ToolError → String
  | .alreadyRegistered name => "Tool '" ++ name ++ "' is already registered."
  | .toolNotFound toolName => "No such tool: '" ++ toolName ++ "'."
  | .toolNotAllowed specialist toolName =>
    "Specialist '" ++ specialist.value ++ "' may not call tool '" ++ toolName ++ "'."
  | .rateLimitExceeded name rateLimitPerMinute =>
    "Tool '" ++ name ++ "' exceeded " ++ toString rateLimitPerMinute ++ " calls/minute."

/-- `argsSchema` makes the keyword arguments out of the arguments of a call, or rejects them; `func` gets the keyword
arguments and returns a text or raises.  Arguments are JSON texts. -/
structure RegisteredTool (W : Type) where
  name : String
  description : String
  func : String → W → Except String String × W
  allowedSpecialists : List SpecialistType
  argsSchema : String → Except String String
  rateLimitPerMinute : Nat := 30
  callTimestamps : List ℚ := []

namespace RegisteredTool

variable {W : Type}

/-- `_check_rate_limit` at the time `now`. -/
def checkRateLimit (now : ℚ) (tool : RegisteredTool W) : Except ToolError Unit × RegisteredTool W :=
  let kept := Window.prune 60 now tool.callTimestamps
  if tool.rateLimitPerMinute ≤ kept.length then
    (.error (.rateLimitExceeded tool.name tool.rateLimitPerMinute), { tool with callTimestamps := kept })
  else
    (.ok (), { tool with callTimestamps := kept ++ [now] })

def withTimestamps (callTimestamps : List ℚ) (tool : RegisteredTool W) : RegisteredTool W := { tool with callTimestamps }

variable {now : ℚ} {tool : RegisteredTool W}

theorem checkRateLimit_of_le (h : tool.rateLimitPerMinute ≤ (Window.prune 60 now tool.callTimestamps).length) :
    tool.checkRateLimit now = (.error (.rateLimitExceeded tool.name tool.rateLimitPerMinute),
      tool.withTimestamps (Window.prune 60 now tool.callTimestamps)) := if_pos h

theorem checkRateLimit_of_lt (h : (Window.prune 60 now tool.callTimestamps).length < tool.rateLimitPerMinute) :
    tool.checkRateLimit now =
      (.ok (), tool.withTimestamps (Window.prune 60 now tool.callTimestamps ++ [now])) := if_neg (not_le.2 h)

end RegisteredTool

/-- The times at which a call reads the clock. -/
structure Readings where
  now : ℚ
  start : ℚ
  stop : ℚ
deriving DecidableEq

structure ToolRegistry (W : Type) where
  tools : Dict String (RegisteredTool W) := ∅
  callLog : List ToolCallLog := []

namespace ToolRegistry

variable {W : Type}

def register (name description : String) (func : String → W → Except String String × W)
    (allowedSpecialists : List SpecialistType) (argsSchema : String → Except String String) (rateLimitPerMinute : Nat)
    (registry : ToolRegistry W) : Except ToolError (ToolRegistry W) :=
  match registry.tools.get? name with
  | some _ => .error (.alreadyRegistered name)
  | none => .ok { registry with
      tools := registry.tools.insert name
        { name, description, func, allowedSpecialists, argsSchema, rateLimitPerMinute } }

def listToolsFor (specialist : SpecialistType) (registry : ToolRegistry W) : List (RegisteredTool W) :=
  registry.tools.values.filter fun tool => specialist ∈ tool.allowedSpecialists

/-- The entry for a call of a tool whose function has come out with `output`. -/
def entry (toolName kwargs : String) (readings : Readings) (output : Except String String) : ToolCallLog :=
  match output with
  | .ok output => {
      toolName
      inputs := kwargs
      output := some output
      success := true
      latencyMs := (readings.stop - readings.start) * 1000 }
  | .error e => {
      toolName
      inputs := kwargs
      success := false
      latencyMs := (readings.stop - readings.start) * 1000
      error := some e }

/-- What the call raises or returns, with the registry and the state of the functions after it. -/
def invoke (toolName : String) (specialist : SpecialistType) (kwargs : String) (readings : Readings)
    (registry : ToolRegistry W) (world : W) : Except ToolError ToolCallLog × ToolRegistry W × W :=
  match registry.tools.get? toolName with
  | none => (.error (.toolNotFound toolName), registry, world)
  | some tool =>
    if specialist ∉ tool.allowedSpecialists then (.error (.toolNotAllowed specialist toolName), registry, world)
    else
      let (checked, tool') := tool.checkRateLimit readings.now
      let tools := registry.tools.insert toolName tool'
      match checked with
      | .error e => (.error e, { registry with tools }, world)
      | .ok () =>
        let (output, world') := tool.func kwargs world
        let log := entry toolName kwargs readings output
        (.ok log, { tools, callLog := registry.callLog ++ [log] }, world')

section Invoke

variable {registry : ToolRegistry W} {toolName kwargs : String} {specialist : SpecialistType} {readings : Readings}
  {world : W} {tool tool' : RegisteredTool W}

theorem invoke_of_none (h : registry.tools.get? toolName = none) :
    registry.invoke toolName specialist kwargs readings world = (.error (.toolNotFound toolName), registry, world) := by
  unfold invoke
  rw [h]

theorem invoke_of_not_allowed (h : registry.tools.get? toolName = some tool)
    (hallowed : specialist ∉ tool.allowedSpecialists) :
    registry.invoke toolName specialist kwargs readings world =
      (.error (.toolNotAllowed specialist toolName), registry, world) := by
  unfold invoke
  rw [h]
  exact if_pos hallowed

theorem invoke_of_refused (h : registry.tools.get? toolName = some tool)
    (hallowed : specialist ∈ tool.allowedSpecialists) {e : ToolError}
    (hcheck : tool.checkRateLimit readings.now = (.error e, tool')) :
    registry.invoke toolName specialist kwargs readings world =
      (.error e, { registry with tools := registry.tools.insert toolName tool' }, world) := by
  unfold invoke
  rw [h]
  refine (if_neg (not_not_intro hallowed)).trans ?_
  rw [hcheck]

theorem invoke_of_admitted (h : registry.tools.get? toolName = some tool)
    (hallowed : specialist ∈ tool.allowedSpecialists) (hcheck : tool.checkRateLimit readings.now = (.ok (), tool')) :
    registry.invoke toolName specialist kwargs readings world =
      (.ok (entry toolName kwargs readings (tool.func kwargs world).1),
        { tools := registry.tools.insert toolName tool'
          callLog := registry.callLog ++ [entry toolName kwargs readings (tool.func kwargs world).1] },
        (tool.func kwargs world).2) := by
  unfold invoke
  rw [h]
  refine (if_neg (not_not_intro hallowed)).trans ?_
  rw [hcheck]

/-- A call of an allowed tool is let through below the limit. -/
theorem invoke_ok_iff (h : registry.tools.get? toolName = some tool) (hallowed : specialist ∈ tool.allowedSpecialists) :
    (∃ log, (registry.invoke toolName specialist kwargs readings world).1 = .ok log) ↔
      (Window.prune 60 readings.now tool.callTimestamps).length < tool.rateLimitPerMinute := by
  by_cases hlt : (Window.prune 60 readings.now tool.callTimestamps).length < tool.rateLimitPerMinute
  · rw [invoke_of_admitted h hallowed (RegisteredTool.checkRateLimit_of_lt hlt)]
    exact iff_of_true ⟨_, rfl⟩ hlt
  · rw [invoke_of_refused h hallowed (RegisteredTool.checkRateLimit_of_le (not_lt.1 hlt))]
    exact iff_of_false (by simp) hlt

/-- What a call comes to: it is turned away, or refused by the limit of its tool, or its tool runs. -/
theorem invoke_cases (registry : ToolRegistry W) (toolName kwargs : String) (specialist : SpecialistType)
    (readings : Readings) (world : W) :
    (∃ e, registry.invoke toolName specialist kwargs readings world = (.error e, registry, world)) ∨
      ∃ tool stamps, registry.tools.get? toolName = some tool ∧
        ((∃ e, registry.invoke toolName specialist kwargs readings world =
            (.error e, { registry with tools := registry.tools.insert toolName (tool.withTimestamps stamps) }, world)) ∨
          registry.invoke toolName specialist kwargs readings world =
            (.ok (entry toolName kwargs readings (tool.func kwargs world).1),
              { tools := registry.tools.insert toolName (tool.withTimestamps stamps)
                callLog := registry.callLog ++ [entry toolName kwargs readings (tool.func kwargs world).1] },
              (tool.func kwargs world).2)) := by
  cases hget : registry.tools.get? toolName with
  | none => exact .inl ⟨_, invoke_of_none hget⟩
  | some tool =>
    by_cases hallowed : specialist ∈ tool.allowedSpecialists
    · by_cases hlt : (Window.prune 60 readings.now tool.callTimestamps).length < tool.rateLimitPerMinute
      · exact .inr ⟨tool, _, rfl, .inr (invoke_of_admitted hget hallowed (RegisteredTool.checkRateLimit_of_lt hlt))⟩
      · exact .inr ⟨tool, _, rfl,
          .inl ⟨_, invoke_of_refused hget hallowed (RegisteredTool.checkRateLimit_of_le (not_lt.1 hlt))⟩⟩
    · exact .inl ⟨_, invoke_of_not_allowed hget hallowed⟩

/-- What a call returns is the entry of what the function of its tool comes out with. -/
theorem entry_of_invoke {log : ToolCallLog}
    (h : (registry.invoke toolName specialist kwargs readings world).1 = .ok log) :
    ∃ tool, registry.tools.get? toolName = some tool ∧ log = entry toolName kwargs readings (tool.func kwargs world).1 := by
  rcases invoke_cases registry toolName kwargs specialist readings world with
    ⟨e, heq⟩ | ⟨tool, stamps, hget, ⟨e, heq⟩ | heq⟩
  · exact absurd (heq ▸ h) (by simp)
  · exact absurd (heq ▸ h) (by simp)
  · rw [heq] at h
    exact ⟨tool, hget, (Except.ok.inj h).symm⟩

/-- A tool of this name may be called by the specialist. -/
def Offers (registry : ToolRegistry W) (specialist : SpecialistType) (name : String) : Prop :=
  ∃ tool, registry.tools.get? name = some tool ∧ specialist ∈ tool.allowedSpecialists

private theorem Offers.insert {callLog : List ToolCallLog} {s : SpecialistType} {name : String} {stamps : List ℚ}
    (h : registry.Offers s name) (hget : registry.tools.get? toolName = some tool) :
    ToolRegistry.Offers ⟨registry.tools.insert toolName (tool.withTimestamps stamps), callLog⟩ s name := by
  obtain ⟨tool', hget', hallowed'⟩ := h
  by_cases hname : name = toolName
  · subst hname
    obtain rfl := Option.some.inj (hget.symm.trans hget')
    exact ⟨_, (Dict.get?_insert ..).trans (if_pos rfl), hallowed'⟩
  · exact ⟨tool', (Dict.get?_insert ..).trans ((if_neg hname).trans hget'), hallowed'⟩

/-- No call takes a tool away. -/
theorem Offers.invoke {s : SpecialistType} {name : String} (h : registry.Offers s name) :
    (registry.invoke toolName specialist kwargs readings world).2.1.Offers s name := by
  rcases invoke_cases registry toolName kwargs specialist readings world with
    ⟨e, heq⟩ | ⟨tool, stamps, hget, ⟨e, heq⟩ | heq⟩
  · rw [heq]
    exact h
  · rw [heq]
    exact h.insert hget
  · rw [heq]
    exact h.insert hget

/-- A call that raises logs nothing, and no function runs in it. -/
theorem invoke_error {e : ToolError} (h : (registry.invoke toolName specialist kwargs readings world).1 = .error e) :
    (registry.invoke toolName specialist kwargs readings world).2.1.callLog = registry.callLog ∧
      (registry.invoke toolName specialist kwargs readings world).2.2 = world := by
  rcases invoke_cases registry toolName kwargs specialist readings world with
    ⟨e', heq⟩ | ⟨tool, stamps, hget, ⟨e', heq⟩ | heq⟩
  · rw [heq]
    exact ⟨rfl, rfl⟩
  · rw [heq]
    exact ⟨rfl, rfl⟩
  · exact absurd (heq ▸ h) (by simp)

end Invoke

/-- The registries that come of registering tools. -/
inductive Built : ToolRegistry W → Prop
  | empty : Built {}
  | register {registry registry' : ToolRegistry W} {name description : String}
      {func : String → W → Except String String × W} {allowedSpecialists : List SpecialistType}
      {argsSchema : String → Except String String} {rateLimitPerMinute : Nat} (h : Built registry)
      (hr : registry.register name description func allowedSpecialists argsSchema rateLimitPerMinute = .ok registry') :
      Built registry'

/-- A tool is registered under its name, and has not been called yet. -/
theorem Built.tool {registry : ToolRegistry W} (h : Built registry) {name : String} {tool : RegisteredTool W}
    (hget : registry.tools.get? name = some tool) : tool.name = name ∧ tool.callTimestamps = [] := by
  induction h with
  | empty => exact absurd hget (by simp)
  | @register registry registry' name' description func allowedSpecialists argsSchema limit h hr ih =>
    unfold ToolRegistry.register at hr
    split at hr
    · exact absurd hr (by simp)
    · obtain rfl := Except.ok.inj hr
      simp only [Dict.get?_insert] at hget
      split at hget
      · rename_i hname
        obtain rfl := Option.some.inj hget
        exact ⟨hname.symm, rfl⟩
      · exact ih hget

end ToolRegistry

end AgentOrchestrator
