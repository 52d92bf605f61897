import AgentOrchestrator.Agents.ToolUse
import AgentOrchestrator.Tools.Confinement

/-!
# What a specialist can reach

Several specialists run at once on one toolbox, whatever their models ask for.  Two toolboxes are `Twins` for some
specialists if their tools match for these and nothing else of them differs that a command can show; then every run of
such specialists on the one is, answer by answer, a run on the other.  For the built-in tools, files without a loop of
symbolic links and specialists that may neither run code nor query the database: nothing outside of the sandbox is
changed, and no file outside of it, no interpreter and no database makes a difference (`specialists_confined`).
-/

namespace AgentOrchestrator.SpecialistAgent

/-! ### The commands of a run -/

/-- A tool is asked for in the name of one of the specialists. -/
def CallsFor (T : SpecialistType → Prop) (c : Command) : Prop := ∀ ref s call, c = .useTool ref s call → T s

section Only

variable {T : SpecialistType → Prop} {agent : SpecialistAgent}

theorem callsFor_of_ne {c : Command} (h : ∀ ref s call, c ≠ .useTool ref s call) : CallsFor T c :=
  fun ref s call hc => absurd hc (h ref s call)

theorem only_readUsage (ref : AgentRef) : Prog.Body.Only (CallsFor T)
    (readUsage ref : Prog.Body Command Response Attempt String (Option TokenUsage)) := by
  have hread : CallsFor T (.read ref .usage) := callsFor_of_ne fun _ _ _ => by simp
  unfold readUsage
  refine .bind (.send hread) fun usage => ?_
  split
  · exact .pure _
  · refine .bind (.send hread) fun usage => ?_
    split
    · exact .throw _
    · refine .bind (.send hread) fun usage => ?_
      split
      · exact .throw _
      · exact .pure _

theorem only_accumulate (ref : AgentRef) : Prog.Body.Only (CallsFor T) (accumulate ref) := by
  unfold accumulate
  refine .bind (only_readUsage ref) fun usage => ?_
  cases usage with
  | none => exact .pure _
  | some u => exact .modify _

theorem only_invoke (withTools : Bool) : Prog.Body.Only (CallsFor T) (invoke agent withTools) := by
  unfold invoke
  refine .bind .get fun a => .bind (.send (callsFor_of_ne fun _ _ _ => by simp)) fun reply => ?_
  cases reply with
  | error e => exact .throw _
  | ok message =>
    refine .bind (.send (callsFor_of_ne fun _ _ _ => by simp)) fun _ => ?_
    exact .bind (only_accumulate _) fun _ => .bind (.modify _) fun _ => .pure _

theorem only_callTool (hs : T agent.specialistType) (call : ToolCall) :
    Prog.Body.Only (CallsFor T) (callTool agent call) := by
  have hreadLog : CallsFor T (.readLog agent.ref.registry) := callsFor_of_ne fun _ _ _ => by simp
  have huse : CallsFor T (.useTool agent.ref agent.specialistType call) := by
    intro ref s call hc
    exact (Command.useTool.inj hc).2.1 ▸ hs
  unfold callTool useTool
  refine .bind (.send hreadLog) fun before => ?_
  split
  · refine .bind (.bind (.send huse) fun used => ?_) fun text =>
      .bind (.send hreadLog) fun after => .bind (.modify _) fun _ => .modify _
    cases used with
    | error e => exact .pure _
    | ok log =>
      refine .bind (.send (callsFor_of_ne fun _ _ _ => by simp)) fun _ => ?_
      split
      · exact .pure _
      · exact .pure _
  · exact .modify _

theorem only_toolLoop (hs : T agent.specialistType) (n : Nat) : Prog.Body.Only (CallsFor T) (toolLoop agent n) := by
  induction n with
  | zero => exact .pure _
  | succ n ih =>
    unfold toolLoop
    refine .bind (only_invoke true) fun message => ?_
    split
    · exact .pure _
    · exact .bind (.forM fun call => only_callTool hs call) fun _ => ih

theorem only_finalAnswer : Prog.Body.Only (CallsFor T) (finalAnswer agent) := by
  unfold finalAnswer
  refine .bind .get fun a => .bind (.send (callsFor_of_ne fun _ _ _ => by simp)) fun final => ?_
  cases final with
  | error e => exact .throw _
  | ok final =>
    obtain ⟨raw, parsed⟩ := final
    refine .bind (.send (callsFor_of_ne fun _ _ _ => by simp)) fun _ => .bind (only_accumulate _) fun _ => ?_
    refine .bind .get fun a => .bind (.send (callsFor_of_ne fun _ _ _ => by simp)) fun _ => ?_
    cases parsed with
    | none => exact .throw _
    | some output => exact .bind (.send (callsFor_of_ne fun _ _ _ => by simp)) fun _ => .pure _

theorem only_body (hs : T agent.specialistType) : Prog.Body.Only (CallsFor T) (body agent) := by
  unfold body bindTools
  refine .bind ?_ fun _ => .bind (only_toolLoop hs _) fun settled => ?_
  · split
    · refine .bind (.send (callsFor_of_ne fun _ _ _ => by simp)) fun bound => ?_
      cases bound with
      | error e => exact .throw _
      | ok _ => exact .pure _
    · exact .pure _
  · split
    · exact only_finalAnswer
    · exact .bind (.modify _) fun _ => .bind (only_invoke false) fun _ => only_finalAnswer

theorem only_run (hs : T agent.specialistType) (subtask : SubTask) (context : Dict String SubtaskResult)
    (feedback : Option String) :
    (run agent subtask context feedback).Follows (.only (CallsFor T)) (fun _ _ => True) () := by
  refine Prog.Follows.perform (callsFor_of_ne fun _ _ _ => by simp) fun _ _ => ?_
  refine Prog.Follows.bind ((only_body hs).attempt _) fun _ out _ => ?_
  obtain ⟨result, a⟩ := out
  cases result with
  | ok output => trivial
  | error e => exact ⟨callsFor_of_ne fun _ _ _ => by simp, fun _ _ => trivial⟩

end Only

/-! ### Toolboxes that cannot be told apart -/

section Twins

variable {W : Type} {T : SpecialistType → Prop} {R : W → W → Prop} {b b₁ b' : Toolbox W}

structure Twins (T : SpecialistType → Prop) (R : W → W → Prop) (b b' : Toolbox W) : Prop where
  workshop : b'.workshop = b.workshop
  readings : b'.readings = b.readings
  calls : b'.calls = b.calls
  tools : MatchingTools T R b.tools b'.tools
  world : R b.world b'.world

/-- The call of a tool has the same outcome. -/
theorem Twins.use (h : Twins T R b b') {specialist : SpecialistType} (hs : T specialist) (ref : AgentRef)
    (call : ToolCall) :
    (b'.use ref specialist call).1 = (b.use ref specialist call).1 ∧
      Twins T R (b.use ref specialist call).2 (b'.use ref specialist call).2 := by
  unfold Toolbox.use
  rcases h.tools.cases call.name with ⟨hget, hget'⟩ | ⟨tool, tool', hget, hget', hmatches⟩
  · rw [hget, hget']
    exact ⟨rfl, h⟩
  · rw [hget, hget', hmatches.same]
    dsimp only
    cases tool.argsSchema call.args with
    | error e => exact ⟨rfl, h⟩
    | ok kwargs =>
      have hlog : b'.workshop.callLogs ref.registry = b.workshop.callLogs ref.registry := by rw [h.workshop]
      obtain ⟨hanswer, htools, hworld⟩ := invoke_matching h.tools hs (b.workshop.callLogs ref.registry) call.name
        kwargs (b.readings b.calls) h.world
      unfold Toolbox.registry
      rw [hlog, h.readings, h.calls]
      exact ⟨congrArg (Except.mapError ToolError.message) hanswer, h.workshop, rfl, rfl, htools, hworld⟩

/-- A command of one of the specialists has the same answer. -/
theorem Twins.uses (h : Twins T R b b') {c : Command} (hc : CallsFor T c) {r : Response c} (hu : Uses c b r b₁) :
    ∃ b₁', Uses c b' r b₁' ∧ Twins T R b₁ b₁' := by
  have hother : ∀ (hexec : Executes c b.workshop r b₁.workshop) (heq : b₁ = { b with workshop := b₁.workshop }),
      Executes c b'.workshop r b₁.workshop ∧ Twins T R b₁ { b' with workshop := b₁.workshop } := by
    intro hexec heq
    refine ⟨h.workshop.symm ▸ hexec, rfl, ?_, ?_, ?_, ?_⟩
    · rw [heq]
      exact h.readings
    · rw [heq]
      exact h.calls
    · rw [heq]
      exact h.tools
    · rw [heq]
      exact h.world
  cases c with
  | useTool ref s call =>
    obtain ⟨hanswer, htwins⟩ := h.use (hc ref s call rfl) ref call
    obtain ⟨hr, rfl⟩ := Prod.mk.inj (show (r, b₁) = b.use ref s call from hu)
    exact ⟨_, Prod.ext (hr.trans hanswer.symm) rfl, htwins⟩
  | _ => exact ⟨{ b' with workshop := b₁.workshop }, ⟨(hother hu.1 hu.2).1, rfl⟩, (hother hu.1 hu.2).2⟩

/-- What a specialist is to do. -/
structure Assignment where
  agent : SpecialistAgent
  subtask : SubTask
  context : Dict String SubtaskResult
  feedback : Option String

def Assignment.program (a : Assignment) : Program SubtaskResult := run a.agent a.subtask a.context a.feedback

/-- Any number of runs of such specialists at once cannot tell the toolboxes apart. -/
theorem Twins.exec (h : Twins T R b b') {assignments : List Assignment}
    (hs : ∀ a ∈ assignments, T a.agent.specialistType) {tr : List (Move Command Response)}
    {pool : Pool Command Response (Toolbox W) SubtaskResult}
    (hr : Exec (Pool.Step Uses) ⟨b, assignments.map Assignment.program⟩ tr pool) :
    ∃ b₁', Exec (Pool.Step Uses) ⟨b', assignments.map Assignment.program⟩ tr ⟨b₁', pool.progs⟩ ∧
      Twins T R pool.store b₁' := by
  have hfollow : Pool.Follow (fun _ => .only (CallsFor T)) (fun _ _ _ => True) (fun _ => ())
      ⟨b, assignments.map Assignment.program⟩ :=
    Pool.follow_map fun i a hi => only_run (hs a (List.mem_of_getElem? hi)) _ _ _
  refine hfollow.simulate (Twins T R) ?_ h hr
  intro c b r b₁ b' hc hu htwins
  exact htwins.uses hc hu

end Twins

/-- Without loops of symbolic links, research and writing specialists at work, whatever their models ask for, change nothing
outside of the sandbox but make it; and with any other contents of the files outside of it, with any other interpreter and any other database, each
of their commands could have had the same answer. -/
theorem specialists_confined {E : Type} {env : Environment E} {registry : ToolRegistry (Machine E)}
    (hregistry : registerBuiltinTools env {} = .ok registry) {assignments : List Assignment}
    (hs : ∀ a ∈ assignments, WithoutCode a.agent.specialistType) {b : Toolbox (Machine E)}
    (htools : b.tools = registry.tools) (hloops : b.world.files.LoopFree) {sandbox : List String}
    (hhome : b.world.files.resolve (PurePath.ofString env.sandboxWorkdir) = .ok sandbox)
    {tr : List (Move Command Response)} {pool : Pool Command Response (Toolbox (Machine E)) SubtaskResult}
    (hr : Exec (Pool.Step Uses) ⟨b, assignments.map Assignment.program⟩ tr pool) :
    FileTree.Within sandbox b.world.files pool.store.world.files ∧
      ∀ env' registry' files', SameButCode env env' → registerBuiltinTools env' {} = .ok registry' →
        FileTree.Alike sandbox b.world.files files' →
        ∃ pool', Exec (Pool.Step Uses) ⟨{ b with
            tools := registry'.tools
            world := { b.world with files := files' } }, assignments.map Assignment.program⟩ tr pool' ∧
          pool'.progs = pool.progs := by
  have htwins : ∀ env' registry' files', SameButCode env env' → registerBuiltinTools env' {} = .ok registry' →
      FileTree.Alike sandbox b.world.files files' → Twins WithoutCode
        (View env.sandboxWorkdir sandbox b.world.files) b { b with
          tools := registry'.tools
          world := { b.world with files := files' } } := by
    intro env' registry' files' henv hregistry' halike
    refine ⟨rfl, rfl, rfl, htools ▸ matching_builtin henv hregistry hregistry', ?_⟩
    exact ⟨rfl, halike, .refl sandbox b.world.files, hloops, hhome⟩
  constructor
  · obtain ⟨b₁', -, hrel⟩ := (htwins env registry b.world.files rfl hregistry (.refl sandbox _)).exec hs hr
    exact hrel.world.within
  · intro env' registry' files' henv hregistry' halike
    obtain ⟨b₁', hrun, -⟩ := (htwins env' registry' files' henv hregistry' halike).exec hs hr
    exact ⟨_, hrun, rfl⟩

/-! ### A note in the sandbox -/

section Sample

/-- A schema that knows one call. -/
def onlyArgs {α : Type} (args : String) (a : α) : Schema α where
  validate text := if text = args then .ok a else .error "1 validation error"
  dump _ := args

def noteArgs : String := "\x7b\"path\": \"note\", \"content\": \"5.6 million\"\x7d"

/-- No service answers, and the interpreter does what `python` says. -/
def sampleEnvironment (python : FileTree → FileTree) : Environment Unit where
  sandboxWorkdir := "./box"
  codeExecutionTimeoutSeconds := "10"
  tavilyApiKey := none
  unicode := Url.ascii
  webSearchInput := onlyArgs "" ("", 5)
  fileReadInput := onlyArgs "" ""
  fileWriteInput := onlyArgs noteArgs ("note", "5.6 million")
  codeExecutionInput := onlyArgs "" ""
  dbQueryInput := onlyArgs "" ""
  apiCallInput := onlyArgs "" ("", "GET", none)
  fileMessage _ := "[Errno 2] No such file or directory"
  urlMessage _ := "Invalid IPv6 URL"
  tavily _ _ _ e := (.error "Unauthorized", e)
  web _ := literalWeb
  connected _ e := e
  tempFile sandbox _ m := (.ok (sandbox ++ ["snippet.py"]), m)
  python _ _ m := (.completed 0 "" "", { m with files := python m.files })
  unlink _ m := m
  sqlite _ _ m := (.error "no such table", m)

def sampleRegistry (python : FileTree → FileTree) : ToolRegistry (Machine Unit) :=
  (registerBuiltinTools (sampleEnvironment python) {}).toOption.getD {}

/-- A model that asks for a note to be written first, and then answers. -/
def answerNote : (c : Command) → Toolbox (Machine Unit) → Response c × Toolbox (Machine Unit)
  | .useTool ref specialist call, b => b.use ref specialist call
  | .invoke _ _ messages, b => (.ok { content := "", toolCalls := if messages.length = 2 then
      [⟨"call", "file_write", noteArgs⟩] else [] }, b)
  | c, b =>
    let out := (sampleScript 0).answer ⟨fun _ => 0, fun _ => 0⟩ c { workshop := b.workshop }
    (out.1, { b with workshop := out.2.workshop })

theorem uses_answerNote (c : Command) (b : Toolbox (Machine Unit)) : Uses c b (answerNote c b).1 (answerNote c b).2 := by
  cases c with
  | useTool ref specialist call => rfl
  | invoke ref withTools messages => exact ⟨rfl, rfl⟩
  | _ => exact ⟨executes_answer (sampleScript 0) ⟨fun _ => 0, fun _ => 0⟩ _ { workshop := b.workshop }, rfl⟩

def sampleAssignments : List Assignment :=
  [⟨⟨.inProcess .research, .research, "claude-sonnet", ["file_write"]⟩, sampleSubtask, ∅, none⟩,
    ⟨⟨.inProcess .writing, .writing, "claude-sonnet", ["file_write"]⟩, sampleSubtask, ∅, none⟩]

def noteToolbox (python : FileTree → FileTree) (files : FileTree) : Toolbox (Machine Unit) where
  workshop := emptyWorkshop
  tools := (sampleRegistry python).tools
  world := ⟨files, ()⟩
  readings _ := ⟨0, 0, 0⟩

/-- Two specialists write a note, and could have done so with another key outside of the sandbox, whatever the
interpreter does. -/
theorem specialists_confined_sample : ∃ tr pool,
    Exec (Pool.Step Uses) ⟨noteToolbox id sampleTree, sampleAssignments.map Assignment.program⟩ tr pool ∧
      pool.store.world.files.node ["srv", "box", "note"] = some (.file "5.6 million") ∧
      FileTree.Within ["srv", "box"] sampleTree pool.store.world.files ∧
      ∀ python content (h : sampleTree.CanPut ["srv", "box2", "key"]), ∃ pool', Exec (Pool.Step Uses)
        ⟨noteToolbox python (sampleTree.put ["srv", "box2", "key"] (.file content) h),
          sampleAssignments.map Assignment.program⟩ tr pool' ∧ pool'.progs = pool.progs := by
  have hscript : scriptEnds (Pool.advance answerNote)
      ⟨noteToolbox id sampleTree, sampleAssignments.map Assignment.program⟩ [0, 1, 0, 0, 1, 1, 0, 0, 1, 0, 1, 0, 1]
      (fun _ pool => pool.store.world.files.node ["srv", "box", "note"] = some (.file "5.6 million")) = true := by
    decide +kernel
  obtain ⟨tr, pool, hrun, hnote⟩ := Pool.exec_of_order uses_answerNote hscript
  have hs : ∀ a ∈ sampleAssignments, WithoutCode a.agent.specialistType := by
    simp [sampleAssignments, WithoutCode]
  have hhome : sampleTree.resolve (PurePath.ofString "./box") = .ok ["srv", "box"] := by decide +kernel
  have hkey : sampleTree.node ["srv", "box2", "key"] = some (.file "secret") := by decide +kernel
  have hregistry : ∀ python, registerBuiltinTools (sampleEnvironment python) {} = .ok (sampleRegistry python) :=
    fun _ => rfl
  obtain ⟨hwithin, hothers⟩ := specialists_confined (hregistry id) hs rfl loopFree_sampleTree hhome hrun
  refine ⟨tr, pool, hrun, of_decide_eq_true hnote, hwithin, fun python content h => ?_⟩
  exact hothers (sampleEnvironment python) (sampleRegistry python) _ rfl (hregistry python)
    (.overwrite h hkey (by decide))

end Sample

end AgentOrchestrator.SpecialistAgent
