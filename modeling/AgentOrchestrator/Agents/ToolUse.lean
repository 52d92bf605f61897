import AgentOrchestrator.Agents.Conversation
import AgentOrchestrator.Tools.Registry

/-!
# The tools of a specialist

Here the tools of a specialist are those of its registry: the schema of the tool makes the keyword arguments out of the
arguments that the model has given, and the registry lets the call through or not.  What a run returns of its tool calls
and what the call log grows by are the same list, the calls whose tool has run; it has an entry of its own for every tool
call asked for if and only if none of them is rejected by a schema or by a rate limit, or comes with the reply after the
loop (`fully_logged_iff`).
-/

namespace AgentOrchestrator.SpecialistAgent

variable {W : Type}

/-- The workshop with the tools of the registry, what their functions work on, and the times at which the clock will be
read by the calls to come. -/
structure Toolbox (W : Type) where
  workshop : Workshop
  tools : Dict String (RegisteredTool W)
  world : W
  readings : Nat → Readings
  calls : Nat := 0

namespace Toolbox

def registry (ref : AgentRef) (b : Toolbox W) : ToolRegistry W := ⟨b.tools, b.workshop.callLogs ref.registry⟩

/-- The call of a tool by the model, up to the moment at which it is logged. -/
def use (ref : AgentRef) (specialist : SpecialistType) (call : ToolCall) (b : Toolbox W) :
    Except String ToolCallLog × Toolbox W :=
  match b.tools.get? call.name with
  | none => (.error (ToolError.toolNotFound call.name).message, b)
  | some tool =>
    match tool.argsSchema call.args with
    | .error e => (.error e, b)
    | .ok kwargs =>
      let used := (b.registry ref).invoke call.name specialist kwargs (b.readings b.calls) b.world
      (used.1.mapError ToolError.message,
        { b with tools := used.2.1.tools, world := used.2.2, calls := b.calls + 1 })

/-- The schema of the tool takes the arguments, and the rate limit of the tool is not reached. -/
def LetsThrough (b : Toolbox W) (call : ToolCall) : Prop :=
  ∃ tool ∈ b.tools.get? call.name, (tool.argsSchema call.args).isOk = true ∧
    (Window.prune 60 (b.readings b.calls).now tool.callTimestamps).length < tool.rateLimitPerMinute

/-- The entry has the name of the tool, the arguments as its schema has made them, and what its function comes out with. -/
def Records (b : Toolbox W) (call : ToolCall) (log : ToolCallLog) : Prop :=
  ∃ tool kwargs, b.tools.get? call.name = some tool ∧ tool.argsSchema call.args = .ok kwargs ∧
    log = ToolRegistry.entry call.name kwargs (b.readings b.calls) (tool.func kwargs b.world).1

/-- What the runner of the tool returns or raises. -/
def answer (b : Toolbox W) (agent : SpecialistAgent) (call : ToolCall) : Except String String :=
  toolAnswer call (b.use agent.ref agent.specialistType call).1

instance (b : Toolbox W) (call : ToolCall) : Decidable (b.LetsThrough call) :=
  decidable_of_iff (((b.tools.get? call.name).any fun tool => (tool.argsSchema call.args).isOk &&
      decide ((Window.prune 60 (b.readings b.calls).now tool.callTimestamps).length < tool.rateLimitPerMinute)) = true) (by
    simp [LetsThrough, Option.any_eq_true])

end Toolbox

/-- The model answers anything, and the tools as the registry says. -/
def Uses (c : Command) (b : Toolbox W) (r : Response c) (b' : Toolbox W) : Prop :=
  match c, r with
  | .useTool ref specialist call, r => (r, b') = b.use ref specialist call
  | c, r => Executes c b.workshop r b'.workshop ∧ b' = { b with workshop := b'.workshop }

/-- The specialist has been made with the registry. -/
structure Equipped (agent : SpecialistAgent) (b : Toolbox W) : Prop where
  name_eq : ∀ name tool, b.tools.get? name = some tool → tool.name = name
  lcTools_eq : agent.lcTools = ((b.registry agent.ref).listToolsFor agent.specialistType).map (·.name)

variable {agent : SpecialistAgent} {b b' : Toolbox W}

/-- Every tool of the specialist may be called by it. -/
theorem Equipped.offers (h : Equipped agent b) : ∀ name ∈ agent.lcTools,
    (b.registry agent.ref).Offers agent.specialistType name := by
  intro name hname
  rw [h.lcTools_eq] at hname
  obtain ⟨tool, htool, rfl⟩ := List.mem_map.1 hname
  obtain ⟨hvalue, hallowed⟩ := List.mem_filter.1 htool
  obtain ⟨key, hkey⟩ := Dict.mem_values_iff.1 hvalue
  exact ⟨tool, (h.name_eq key tool hkey).symm ▸ hkey, by simpa using hallowed⟩

/-! ### One call -/

section Use

variable {ref : AgentRef} {specialist : SpecialistType} {call : ToolCall}

/-- A call is rejected before it comes to the registry, or goes there with keyword arguments. -/
theorem use_cases (b : Toolbox W) (ref : AgentRef) (specialist : SpecialistType) (call : ToolCall) :
    ((∀ tool ∈ b.tools.get? call.name, (tool.argsSchema call.args).isOk = false) ∧
        ∃ e, b.use ref specialist call = (.error e, b)) ∨
      ∃ tool kwargs, b.tools.get? call.name = some tool ∧ tool.argsSchema call.args = .ok kwargs ∧
        b.use ref specialist call =
          (((b.registry ref).invoke call.name specialist kwargs (b.readings b.calls) b.world).1.mapError
              ToolError.message,
            { b with
              tools := ((b.registry ref).invoke call.name specialist kwargs (b.readings b.calls) b.world).2.1.tools
              world := ((b.registry ref).invoke call.name specialist kwargs (b.readings b.calls) b.world).2.2
              calls := b.calls + 1 }) := by
  unfold Toolbox.use
  cases hget : b.tools.get? call.name with
  | none => exact .inl ⟨by simp, _, rfl⟩
  | some tool =>
    dsimp only
    cases hschema : tool.argsSchema call.args with
    | error e =>
      refine .inl ⟨fun tool' htool' => ?_, _, rfl⟩
      obtain rfl := Option.some.inj htool'
      rw [hschema]
      rfl
    | ok kwargs => exact .inr ⟨tool, kwargs, rfl, hschema, rfl⟩

theorem workshop_use (b : Toolbox W) (ref : AgentRef) (specialist : SpecialistType) (call : ToolCall) :
    (b.use ref specialist call).2.workshop = b.workshop := by
  rcases use_cases b ref specialist call with ⟨-, e, heq⟩ | ⟨tool, kwargs, -, -, heq⟩
  · rw [heq]
  · rw [heq]

theorem offers_use (ref : AgentRef) {s : SpecialistType} {name : String} (h : (b.registry ref).Offers s name) :
    ((b.use ref specialist call).2.registry ref).Offers s name := by
  rcases use_cases b ref specialist call with ⟨-, e, heq⟩ | ⟨tool, kwargs, -, -, heq⟩
  · rw [heq]
    exact h
  · rw [heq]
    exact h.invoke

private theorem mapError_eq_ok {ε ε' α : Type} {x : Except ε α} {f : ε → ε'} {a : α} :
    x.mapError f = .ok a ↔ x = .ok a := by
  cases x <;> simp [Except.mapError]

/-- What is logged of a call is an entry of this call. -/
theorem records_of_use {log : ToolCallLog} (h : (b.use ref specialist call).1 = .ok log) : b.Records call log := by
  rcases use_cases b ref specialist call with ⟨-, e, heq⟩ | ⟨tool, kwargs, hget, hschema, heq⟩
  · rw [heq] at h
    exact absurd h (by simp)
  · rw [heq] at h
    obtain ⟨tool', hget', hlog⟩ := ToolRegistry.entry_of_invoke (mapError_eq_ok.1 h)
    obtain rfl := Option.some.inj (hget.symm.trans hget')
    exact ⟨tool, kwargs, hget, hschema, hlog⟩

/-- The tool runs if and only if the schema and the rate limit let the call through. -/
theorem use_ok_iff (h : (b.registry ref).Offers specialist call.name) :
    (∃ log, (b.use ref specialist call).1 = .ok log) ↔ b.LetsThrough call := by
  rcases use_cases b ref specialist call with ⟨hrejected, e, heq⟩ | ⟨tool, kwargs, hget, hschema, heq⟩
  · rw [heq]
    refine iff_of_false (by simp) ?_
    rintro ⟨tool, htool, hok, -⟩
    exact absurd hok (by simp [hrejected tool htool])
  · obtain ⟨tool', hget', hallowed⟩ := h
    obtain rfl := Option.some.inj (hget.symm.trans hget')
    rw [heq]
    simp only [mapError_eq_ok]
    rw [ToolRegistry.invoke_ok_iff hget' hallowed]
    constructor
    · exact fun hlt => ⟨tool, hget, by rw [hschema]; rfl, hlt⟩
    · rintro ⟨tool', htool', -, hlt⟩
      obtain rfl := Option.some.inj (hget.symm.trans htool')
      exact hlt

end Use

/-! ### Whole runs -/

theorem executes_uses {c : Command} {r : Response c} (h : Uses c b r b') : Executes c b.workshop r b'.workshop := by
  cases c with
  | useTool ref specialist call =>
    have huse : (r, b') = b.use ref specialist call := h
    show b'.workshop = b.workshop
    rw [show b' = (b.use ref specialist call).2 from congrArg Prod.snd huse]
    exact workshop_use ..
  | _ => exact h.1

theorem offers_uses {c : Command} {r : Response c} (h : Uses c b r b') {s : SpecialistType} {name : String}
    (hoffers : (b.registry agent.ref).Offers s name) : (b'.registry agent.ref).Offers s name := by
  cases c with
  | useTool ref specialist call =>
    have huse : (r, b') = b.use ref specialist call := h
    rw [show b' = (b.use ref specialist call).2 from congrArg Prod.snd huse]
    exact offers_use ref hoffers
  | _ =>
    rw [h.2]
    exact hoffers

/-- A reply of the model, in the loop or after it. -/
def received : (c : Command) → Response c → Option ToolCallingMessage
  | .invoke _ _ _, .ok message => some message
  | _, _ => none

/-- The tool calls that the model asks for on tools of the specialist. -/
def requests (agent : SpecialistAgent) (tr : List (Prog.Exchange Command Response (Toolbox W))) : List ToolCall :=
  (tr.filterMap fun e => received e.cmd e.answer).flatMap fun message =>
    message.toolCalls.filter fun call => call.name ∈ agent.lcTools

/-- The tool call that a command makes. -/
def making : Command → Option ToolCall
  | .useTool _ _ call => some call
  | _ => none

/-- The tool calls made, each with the tools as they were before it. -/
def made (tr : List (Prog.Exchange Command Response (Toolbox W))) : List (Toolbox W × ToolCall) :=
  tr.filterMap fun e => (making e.cmd).map (e.before, ·)

/-- Every tool call asked for is made and answered, and what is returned of the tool calls and what the call log grows by
has one entry for each, in order, a success if the answer is no error. -/
structure FullyLogged (agent : SpecialistAgent) (tr : List (Prog.Exchange Command Response (Toolbox W)))
    (result : SubtaskResult) (before after : List ToolCallLog) : Prop where
  growth : after = before ++ result.toolCalls
  requested : requests agent tr = (made tr).map Prod.snd
  entries : List.Forall₂ (fun u log => u.1.Records u.2 log) (made tr) result.toolCalls
  told : ((answers ((tr.filterMap fun e => sending e.cmd).getLast?.getD [])).filter fun e => e.1.name ∈ agent.lcTools) =
    (made tr).map fun u => (u.2, answerText (u.1.answer agent u.2))
  success : List.Forall₂ (fun u log => log.success = false ↔ ∃ e, u.1.answer agent u.2 = .error e) (made tr)
    result.toolCalls

section Lists

variable {α β : Type} {f : α → Option β} {l : List α}

private theorem forall₂_filterMap {R : α → β → Prop} (h : ∀ a ∈ l, ∃ b, f a = some b ∧ R a b) :
    List.Forall₂ R l (l.filterMap f) := by
  induction l with
  | nil => exact .nil
  | cons a l ih =>
    obtain ⟨b, hb, hR⟩ := h a List.mem_cons_self
    rw [List.filterMap_cons_some hb]
    exact .cons hR (ih fun x hx => h x (List.mem_cons_of_mem _ hx))

private theorem exists_of_length_le (h : l.length ≤ (l.filterMap f).length) : ∀ a ∈ l, ∃ b, f a = some b := by
  induction l with
  | nil => exact fun a ha => absurd ha List.not_mem_nil
  | cons a l ih =>
    have hle : (l.filterMap f).length ≤ l.length := List.length_filterMap_le ..
    cases ha : f a with
    | none =>
      rw [List.filterMap_cons_none ha, List.length_cons] at h
      omega
    | some b =>
      rw [List.filterMap_cons_some ha, List.length_cons, List.length_cons] at h
      exact List.forall_mem_cons.2 ⟨⟨b, ha⟩, ih (by omega)⟩

end Lists

section Requests

variable (agent) (tr : List (Prog.Exchange Command Response (Toolbox W)))

/-- The tool calls of replies on tools of the specialist. -/
def known (agent : SpecialistAgent) (messages : List ToolCallingMessage) : List ToolCall :=
  messages.flatMap fun message => message.toolCalls.filter fun call => call.name ∈ agent.lcTools

theorem received_cases (c : Command) (r : Response c) :
    (received c r = none ∧ reply true c r = none ∧ reply false c r = none) ∨
      (∃ message, received c r = some message ∧ reply true c r = some message ∧ reply false c r = none) ∨
      ∃ message, received c r = some message ∧ reply true c r = none ∧ reply false c r = some message := by
  cases c with
  | invoke ref withTools messages =>
    cases r with
    | error e => exact .inl ⟨rfl, rfl, rfl⟩
    | ok message =>
      cases withTools with
      | true => exact .inr (.inl ⟨message, rfl, rfl, rfl⟩)
      | false => exact .inr (.inr ⟨message, rfl, rfl, rfl⟩)
  | _ => exact .inl ⟨rfl, rfl, rfl⟩

/-- Requests come with replies in the loop or with the reply after it. -/
theorem length_requests : (requests agent tr).length =
    (known agent (tr.filterMap fun e => reply true e.cmd e.answer)).length +
      (known agent (tr.filterMap fun e => reply false e.cmd e.answer)).length := by
  induction tr with
  | nil => rfl
  | cons e tr ih =>
    unfold requests known at ih ⊢
    rcases received_cases e.cmd e.answer with ⟨h, h₁, h₀⟩ | ⟨message, h, h₁, h₀⟩ | ⟨message, h, h₁, h₀⟩
    · simp only [List.filterMap_cons, h, h₁, h₀]
      exact ih
    · simp only [List.filterMap_cons, h, h₁, h₀, List.flatMap_cons, List.length_append]
      omega
    · simp only [List.filterMap_cons, h, h₁, h₀, List.flatMap_cons, List.length_append]
      omega

theorem requests_eq (hforced : known agent (tr.filterMap fun e => reply false e.cmd e.answer) = []) :
    requests agent tr = known agent (tr.filterMap fun e => reply true e.cmd e.answer) := by
  induction tr with
  | nil => rfl
  | cons e tr ih =>
    unfold requests
    unfold requests at ih
    unfold known at ih hforced ⊢
    rcases received_cases e.cmd e.answer with ⟨h, h₁, h₀⟩ | ⟨message, h, h₁, h₀⟩ | ⟨message, h, h₁, h₀⟩
    · simp only [List.filterMap_cons, h₀] at hforced
      simp only [List.filterMap_cons, h, h₁]
      exact ih hforced
    · simp only [List.filterMap_cons, h₀] at hforced
      simp only [List.filterMap_cons, h, h₁, List.flatMap_cons, ih hforced]
    · simp only [List.filterMap_cons, h₀, List.flatMap_cons, List.append_eq_nil_iff] at hforced
      simp only [List.filterMap_cons, h, h₁, List.flatMap_cons, hforced.1, List.nil_append]
      exact ih hforced.2

end Requests

section Runs

variable {subtask : SubTask} {context : Dict String SubtaskResult} {feedback : Option String}
  {tr : List (Prog.Exchange Command Response (Toolbox W))} {result : SubtaskResult}

/-- The tool calls made in a run go to tools of the specialist, and come to what the registry makes of them. -/
theorem made_of_goes (hequipped : Equipped agent b)
    (h : (run agent subtask context feedback).Goes Uses b tr (.ret result) b') :
    (∀ u ∈ made tr, (u.1.registry agent.ref).Offers agent.specialistType u.2.name) ∧
      (tr.filterMap fun e => usedTool e.cmd e.answer) =
        (made tr).map fun u => (u.2, (u.1.use agent.ref agent.specialistType u.2).1) := by
  let base := b.workshop.callLogs agent.ref.registry
  let I (g : Conduct) (b : Toolbox W) : Prop := Keeps agent base g b.workshop ∧
    ∀ name ∈ agent.lcTools, (b.registry agent.ref).Offers agent.specialistType name
  have hI : ∀ g b c r b', I g b → (conduct agent base).guarantee g c → Uses c b r b' →
      (conduct agent base).rely g c r ∧ I ((conduct agent base).next g c r) b' := by
    rintro g b c r b' ⟨hkeeps, hoffers⟩ hc he
    obtain ⟨hrely, hnext⟩ := keeps_step hkeeps hc (executes_uses he)
    exact ⟨hrely, hnext, fun name hname => offers_uses he (hoffers name hname)⟩
  have hexchanges := Prog.Follows.exchanges hI (follows_conduct agent base subtask context feedback)
    ⟨keeps_start agent b.workshop, hequipped.offers⟩ h
  constructor
  · rintro ⟨before, call⟩ hu
    obtain ⟨⟨before, c, r⟩, he, hmaking⟩ := List.mem_filterMap.1 hu
    obtain ⟨g, after, ⟨-, hoffers⟩, hc, -⟩ := hexchanges _ he
    cases c with
    | useTool ref specialist call' =>
      obtain ⟨rfl, rfl⟩ := Prod.mk.inj (Option.some.inj hmaking)
      exact hoffers _ hc.2.2
    | _ => exact absurd hmaking (by simp [making])
  · unfold made
    rw [List.map_filterMap]
    refine List.filterMap_congr fun e he => ?_
    obtain ⟨before, c, r⟩ := e
    obtain ⟨g, after, -, hc, hexec⟩ := hexchanges _ he
    cases c with
    | useTool ref specialist call =>
      obtain ⟨rfl, rfl, -⟩ : ref = agent.ref ∧ specialist = agent.specialistType ∧ call.name ∈ agent.lcTools := hc
      have huse : (r, after) = before.use agent.ref agent.specialistType call := hexec
      exact congrArg (fun r => some (call, r)) (congrArg Prod.fst huse)
    | _ => rfl

/-- What the logs and the answers show of a run, whatever comes of its tool calls. -/
structure Logged (agent : SpecialistAgent) (tr : List (Prog.Exchange Command Response (Toolbox W)))
    (result : SubtaskResult) (before after : List ToolCallLog) : Prop where
  growth : after = before ++ result.toolCalls
  toolCalls_eq : result.toolCalls =
    (made tr).filterMap fun u => (u.1.use agent.ref agent.specialistType u.2).1.toOption
  known_eq : known agent (tr.filterMap fun e => reply true e.cmd e.answer) = (made tr).map Prod.snd
  told : ((answers ((tr.filterMap fun e => sending e.cmd).getLast?.getD [])).filter fun e => e.1.name ∈ agent.lcTools) =
    (made tr).map fun u => (u.2, answerText (u.1.answer agent u.2))

theorem logged_of_goes (hequipped : Equipped agent b)
    (h : (run agent subtask context feedback).Goes Uses b tr (.ret result) b') :
    Logged agent tr result (b.workshop.callLogs agent.ref.registry) (b'.workshop.callLogs agent.ref.registry) := by
  obtain ⟨-, hkeeps⟩ := goes_conduct Toolbox.workshop (fun _ _ _ _ he => executes_uses he) h
  obtain ⟨hrequested, htold, ⟨hmade, hlogged⟩, -⟩ :=
    (returns_of_goes Toolbox.workshop (fun _ _ _ _ he => executes_uses he) h).settled
  obtain ⟨-, hused⟩ := made_of_goes hequipped h
  rw [used_after, hused, List.filterMap_map] at hlogged
  rw [replies_after, List.filter_flatMap, used_after, hused, List.map_map] at hrequested
  rw [Told, sent_after, used_after, hused, List.map_map] at htold
  refine ⟨?_, hmade.trans hlogged, hrequested, htold⟩
  rw [hmade]
  exact hkeeps.callLog

/-- Schemas and rate limits let every tool call through, and the reply after the loop asks for none. -/
structure NoneTurnedAway (agent : SpecialistAgent) (tr : List (Prog.Exchange Command Response (Toolbox W))) : Prop where
  letThrough : ∀ u ∈ made tr, u.1.LetsThrough u.2
  forced : ∀ e ∈ tr, ∀ message ∈ reply false e.cmd e.answer, ∀ call ∈ message.toolCalls, call.name ∉ agent.lcTools

theorem known_eq_nil_iff : known agent (tr.filterMap fun e => reply false e.cmd e.answer) = [] ↔
    ∀ e ∈ tr, ∀ message ∈ reply false e.cmd e.answer, ∀ call ∈ message.toolCalls, call.name ∉ agent.lcTools := by
  simp only [known, List.flatMap_eq_nil_iff, List.filter_eq_nil_iff, List.mem_filterMap, decide_eq_true_eq]
  constructor
  · exact fun h e he message hmessage => h message ⟨e, he, hmessage⟩
  · rintro h message ⟨e, he, hmessage⟩
    exact h e he message hmessage

private theorem toOption_eq_some {ε α : Type} {x : Except ε α} {a : α} : x.toOption = some a ↔ x = .ok a := by
  cases x <;> simp [Except.toOption]

theorem noneTurnedAway_of_fullyLogged (hequipped : Equipped agent b)
    (h : (run agent subtask context feedback).Goes Uses b tr (.ret result) b')
    (hlogged : FullyLogged agent tr result (b.workshop.callLogs agent.ref.registry)
      (b'.workshop.callLogs agent.ref.registry)) : NoneTurnedAway agent tr := by
  have hlogs := logged_of_goes hequipped h
  have hrequests := congrArg List.length hlogged.requested
  have hknown := congrArg List.length hlogs.known_eq
  have hentries := hlogged.entries.length_eq
  rw [length_requests] at hrequests
  rw [hlogs.toolCalls_eq] at hentries
  refine ⟨fun u hu => ?_, known_eq_nil_iff.1 (List.length_eq_zero_iff.1 (by omega))⟩
  obtain ⟨log, hlog⟩ := exists_of_length_le hentries.le u hu
  exact (use_ok_iff ((made_of_goes hequipped h).1 u hu)).1 ⟨log, toOption_eq_some.1 hlog⟩

/-- The tool activity of a run is fully logged if and only if no tool call is turned away. -/
theorem fully_logged_iff (hequipped : Equipped agent b)
    (h : (run agent subtask context feedback).Goes Uses b tr (.ret result) b') :
    FullyLogged agent tr result (b.workshop.callLogs agent.ref.registry) (b'.workshop.callLogs agent.ref.registry) ↔
      NoneTurnedAway agent tr := by
  refine ⟨noneTurnedAway_of_fullyLogged hequipped h, fun hnone => ?_⟩
  obtain ⟨hgrowth, htoolCalls, hknown, htold⟩ := logged_of_goes hequipped h
  have hok : ∀ u ∈ made tr, ∃ log, (u.1.use agent.ref agent.specialistType u.2).1 = .ok log := fun u hu =>
    (use_ok_iff ((made_of_goes hequipped h).1 u hu)).2 (hnone.letThrough u hu)
  refine ⟨hgrowth, ?_, ?_, htold, ?_⟩
  · rw [requests_eq agent tr (known_eq_nil_iff.2 hnone.forced), hknown]
  · rw [htoolCalls]
    refine forall₂_filterMap fun u hu => ?_
    obtain ⟨log, hlog⟩ := hok u hu
    exact ⟨log, toOption_eq_some.2 hlog, records_of_use hlog⟩
  · rw [htoolCalls]
    refine forall₂_filterMap fun u hu => ?_
    obtain ⟨log, hlog⟩ := hok u hu
    refine ⟨log, toOption_eq_some.2 hlog, ?_⟩
    unfold Toolbox.answer
    rw [hlog]
    cases hsuccess : log.success with
    | true => simp [toolAnswer, hsuccess]
    | false => simp [toolAnswer, hsuccess]

end Runs

/-! ### Runs with a registry -/

/-- The answers of the model come from the script, `k` replies have been given. -/
def answerWith (script : Script) : (c : Command) → Toolbox W × Nat → Response c × Toolbox W × Nat
  | .useTool ref specialist call, (b, k) => ((b.use ref specialist call).1, (b.use ref specialist call).2, k)
  | c, (b, k) =>
    let out := script.answer ⟨fun _ => 0, fun _ => 0⟩ c { workshop := b.workshop, replied := k }
    (out.1, { b with workshop := out.2.workshop }, out.2.replied)

theorem uses_answerWith (script : Script) (c : Command) (s : Toolbox W × Nat) :
    Uses c s.1 (answerWith script c s).1 (answerWith script c s).2.1 := by
  obtain ⟨b, k⟩ := s
  cases c with
  | useTool ref specialist call => rfl
  | _ => exact ⟨executes_answer script ⟨fun _ => 0, fun _ => 0⟩ _ { workshop := b.workshop, replied := k }, rfl⟩

/-- A registry with one tool, whose function succeeds once. -/
def sampleToolbox (rateLimitPerMinute : Nat) : Toolbox Nat where
  workshop := emptyWorkshop
  tools := .insert ∅ "web_search" {
    name := "web_search"
    description := "Search the web."
    func := fun _ searched => (if searched = 0 then .ok "5.6 million" else .error "timed out", searched + 1)
    allowedSpecialists := [.research]
    argsSchema := .ok
    rateLimitPerMinute }
  world := 0
  readings _ := ⟨0, 0, 0⟩

theorem equipped_sample (limit : Nat) : Equipped sampleAgent (sampleToolbox limit) where
  name_eq name tool h := by
    have hget : (if name = "web_search" then some _ else none) = some tool := (Dict.get?_insert ..).symm.trans h
    split at hget
    · rename_i hname
      exact Option.some.inj hget ▸ hname.symm
    · exact absurd hget (by simp)
  lcTools_eq := rfl

/-- The first reply asks for the tool twice. -/
def searchScript : Script :=
  { sampleScript 0 with
    replies k := .ok {
      content := "Norway has 5.6 million inhabitants."
      toolCalls := if k = 0 then [⟨"a", "web_search", "Norway"⟩, ⟨"b", "web_search", "Oslo"⟩] else [] } }

def sampleUse (limit : Nat) :
    List (Prog.Exchange Command Response (Toolbox Nat × Nat)) × SpecialistAgent.Program SubtaskResult × Toolbox Nat × Nat :=
  Prog.go (answerWith searchScript) 100 (run sampleAgent sampleSubtask ∅ none) (sampleToolbox limit, 0)

def useTrace (limit : Nat) : List (Prog.Exchange Command Response (Toolbox Nat)) :=
  (sampleUse limit).1.map (.map Prod.fst)

theorem goes_use (limit : Nat) : (run sampleAgent sampleSubtask ∅ none).Goes Uses (sampleToolbox limit) (useTrace limit)
    (sampleUse limit).2.1 (sampleUse limit).2.2.1 := by
  let exec (c : Command) (s : Toolbox Nat × Nat) (r : Response c) (s' : Toolbox Nat × Nat) : Prop := Uses c s.1 r s'.1
  have hgoes : (run sampleAgent sampleSubtask ∅ none).Goes exec (sampleToolbox limit, 0) (sampleUse limit).1
      (sampleUse limit).2.1 (sampleUse limit).2.2 := Prog.goes_go (uses_answerWith searchScript) 100 _ _
  exact hgoes.map Prod.fst fun _ _ _ _ he => he

/-- Two calls of the tool, the second one in vain. -/
theorem fully_logged_sample : ∃ result, (sampleUse 2).2.1 = .ret result ∧ (made (useTrace 2)).length = 2 ∧
    result.toolCalls.map (·.success) = [true, false] ∧
    FullyLogged sampleAgent (useTrace 2) result ((sampleToolbox 2).workshop.callLogs sampleAgent.ref.registry)
      ((sampleUse 2).2.2.1.workshop.callLogs sampleAgent.ref.registry) := by
  obtain ⟨result, hresult⟩ := Prog.exists_of_returned (p := (sampleUse 2).2.1) (by decide +kernel)
  have hgoes := goes_use 2
  rw [hresult] at hgoes
  have hsuccess : result.toolCalls.map (·.success) = [true, false] := by
    rw [(logged_of_goes (equipped_sample 2) hgoes).toolCalls_eq]
    decide +kernel
  exact ⟨result, hresult, by decide +kernel, hsuccess,
    (fully_logged_iff (equipped_sample 2) hgoes).2 ⟨by decide +kernel, by decide +kernel⟩⟩

/-- With a limit of one call a minute the second call is refused, and nothing of it is logged. -/
theorem refused_call_not_logged : ∃ tr result b', Equipped sampleAgent (sampleToolbox 1) ∧
    (run sampleAgent sampleSubtask ∅ none).Goes Uses (sampleToolbox 1) tr (.ret result) b' ∧
      (requests sampleAgent tr).length = 2 ∧ result.toolCalls.length = 1 ∧
      ¬FullyLogged sampleAgent tr result ((sampleToolbox 1).workshop.callLogs sampleAgent.ref.registry)
        (b'.workshop.callLogs sampleAgent.ref.registry) := by
  obtain ⟨result, hresult⟩ := Prog.exists_of_returned (p := (sampleUse 1).2.1) (by decide +kernel)
  have hgoes := goes_use 1
  rw [hresult] at hgoes
  have hrequests : (requests sampleAgent (useTrace 1)).length = 2 := by decide +kernel
  have hentries : result.toolCalls.length = 1 := by
    rw [(logged_of_goes (equipped_sample 1) hgoes).toolCalls_eq]
    decide +kernel
  refine ⟨_, result, _, equipped_sample 1, hgoes, hrequests, hentries, fun hlogged => ?_⟩
  have hmade := congrArg List.length hlogged.requested
  rw [List.length_map, hlogged.entries.length_eq] at hmade
  omega

end AgentOrchestrator.SpecialistAgent
