import AgentOrchestrator.Agents.Script
import AgentOrchestrator.Graph.Trace

/-!
# The two paths of `run_specialist`

In process, one agent object for each specialist type serves every execution; with `use_celery` each job has an object
of its own.  On the same answers the two paths give the same updates and the same event, but for times and
`executed_via`, with one exception: in process an event of a run that has failed has as its response that of the last
run of the same type that has succeeded.  So two sequences of executions agree exactly if none fails after one of its
type that has succeeded (`paths_agree_iff`).
-/

namespace AgentOrchestrator

open SpecialistAgent

/-! ### Executions -/

/-- An execution of `run_specialist`: what it is sent, what the model and the tools answer, and the times it takes on
the two paths. -/
structure Execution where
  payload : SendPayload
  script : Script
  job : Nat
  inProcess : Timing
  celery : Timing

def Execution.timing (e : Execution) (useCelery : Bool) : Timing := if useCelery then e.celery else e.inProcess

/-- The specialist type of the subtask, if the plan has it. -/
def Execution.specialist (e : Execution) : Option SpecialistType :=
  (e.payload.plan.subtasks.find? fun st => st.id = e.payload.subtaskId).map (·.specialist)

/-- The same graph on one of the paths. -/
def App.path (app : App) (useCelery : Bool) : App := { app with useCelery := useCelery }

/-- The node `run_specialist`, on the path that the graph is built with. -/
def perform (app : App) (e : Execution) (w : Workshop) : Except NodeError Branch × Workshop :=
  let out := (branch app e.job e.payload).eval (e.script.answer (e.timing app.useCelery)) { workshop := w }
  (out.1, out.2.workshop)

/-- What is evaluated is a run of the branch. -/
theorem runs_perform (app : App) (e : Execution) (w : Workshop) :
    (branch app e.job e.payload).Runs Executes w (perform app e w).1 (perform app e w).2 :=
  e.script.runs (e.timing app.useCelery) (branch app e.job e.payload) { workshop := w }

/-- The outcomes of executions one after another. -/
def outcomes (app : App) : List Execution → Workshop → List (Except NodeError Branch)
  | [], _ => []
  | e :: es, w => (perform app e w).1 :: outcomes app es (perform app e w).2

/-- What `build_app` makes. -/
def newWorkshop : Workshop where
  agents _ := {}
  callLogs _ := []

/-! ### Timestamps, latencies and `executed_via` -/

def NodeAttributes.untimed : NodeAttributes → NodeAttributes
  | .runSpecialist sid output error retried toolCalls prompt response _ =>
    .runSpecialist sid output error retried (toolCalls.map ToolCallLog.untimed) prompt response .inProcess
  | attributes => attributes

def TraceEvent.untimed (event : TraceEvent) : TraceEvent :=
  { event with startedAt := 0, endedAt := 0, attributes := event.attributes.untimed }

def Update.untimed (u : Update) : Update :=
  { u with completed := u.completed.filterMap fun _ result => some (result.map SubtaskResult.untimed) }

def Branch.untimed (branch : Branch) : Branch where
  run := { branch.run with result := branch.run.result.untimed }
  update := branch.update.untimed
  event := branch.event.untimed

/-! ### What is compared -/

/-- Both paths come to the same updates and events, in every execution. -/
def PathsAgree (app : App) (es : List Execution) : Prop :=
  (outcomes (app.path false) es newWorkshop).map (·.map Branch.untimed) =
    (outcomes (app.path true) es newWorkshop).map (·.map Branch.untimed)

/-- The run of the specialist succeeds. -/
def Execution.completes (app : App) (e : Execution) : Bool :=
  match e.specialist with
  | some specialist => e.script.completes (app.specialistTools specialist)
  | none => false

/-- No run fails after one of the same specialist type that has succeeded. -/
def NoLaterFailure (app : App) (es : List Execution) : Prop :=
  es.Pairwise fun e later => e.completes app = true → e.specialist = later.specialist → later.completes app = true

/-! ### The end of a branch -/

section EndBranch

variable {p : SendPayload} {subtask : SubTask} {result result' : SubtaskResult}

/-- The branch that `endBranch` returns for a subtask of the plan. -/
def endedBranch (p : SendPayload) (subtask : SubTask) (via : ExecutedVia) (start ended : ℚ) (result : SubtaskResult)
    (prompt response : Option String) (usage : List UsageEntry) : Branch where
  run := ⟨p.plan, subtask, p.completed, p.subtaskFeedback.get? p.subtaskId, result⟩
  update := {
    completed := Dict.ofKeys [p.subtaskId] fun _ => some result
    retryCounts := Dict.ofKeys [p.subtaskId] fun _ =>
      some ((p.retryCounts.get? p.subtaskId).getD 0 + if result.success then 0 else 1) }
  event := {
    node := nodeName p.subtaskId
    agent := subtask.specialist.value
    status := if result.success then .success else .failure
    startedAt := start
    endedAt := ended
    attributes := .runSpecialist p.subtaskId result.output result.error (p.subtaskFeedback.get? p.subtaskId).isSome
      result.toolCalls prompt response via
    usage := usage }

theorem eval_endBranch (hfind : (p.plan.subtasks.find? fun st => st.id = p.subtaskId) = some subtask)
    (script : Script) (timing : Timing) (b : Bench) (via : ExecutedVia) (start : ℚ) (prompt response : Option String)
    (usage : List UsageEntry) :
    (endBranch p subtask via start result prompt response usage).eval (script.answer timing) b =
      (.ok (endedBranch p subtask via start (timing.now b.ticks) result prompt response usage),
        { b with ticks := b.ticks + 1 }) := by
  unfold endBranch AgentOrchestrator.runSpecialist
  rw [hfind]
  rfl

theorem untimed_endedBranch (via : ExecutedVia) (start ended : ℚ) (prompt response : Option String)
    (usage : List UsageEntry) :
    (endedBranch p subtask via start ended result prompt response usage).untimed =
      endedBranch p subtask .inProcess 0 0 result.untimed prompt response usage := rfl

/-- But for times, two branches with the same result differ only in what they report beside it. -/
theorem endedBranch_agree_iff (h : result.untimed = result'.untimed) {via via' : ExecutedVia}
    {start start' ended ended' : ℚ} {prompt response response' : Option String} {usage : List UsageEntry} :
    (endedBranch p subtask via start ended result prompt response usage).untimed =
        (endedBranch p subtask via' start' ended' result' prompt response' usage).untimed ↔
      response = response' := by
  rw [untimed_endedBranch, untimed_endedBranch, h]
  constructor
  · intro heq
    have hattributes := congrArg (fun branch : Branch => branch.event.attributes) heq
    simp only [endedBranch, NodeAttributes.runSpecialist.injEq] at hattributes
    exact hattributes.2.2.2.2.2.2.1
  · rintro rfl
    rfl

end EndBranch

/-! ### The two evaluations -/

theorem eval_readUsage {L : Type} (script : Script) (timing : Timing) (agent : AgentRef) (l : L) (b : Bench) :
    ((readUsage agent : Prog.Body Command Response L String (Option TokenUsage)).attempt l).eval (script.answer timing) b =
      ((.ok (b.workshop.agents agent).usage, l), b) := by
  have hread : (readUsage agent).evalTry (script.answer timing) (l, b) = _ := evalTry_readUsage agent (l, b)
  obtain ⟨hresult, hrest⟩ := Prod.mk.inj hread
  obtain ⟨hlocals, hbench⟩ := Prod.mk.inj hrest
  exact Prod.ext (Prod.ext hresult hlocals) hbench

/-- The reads of an agent object after its run. -/
theorem eval_report {α : Type} (script : Script) (timing : Timing) (agent : AgentRef)
    (k : Option String → Option String → Except String (Option TokenUsage) × Unit → SpecialistAgent.Program α)
    (b : Bench) :
    (do
      let prompt : Option String ← Prog.perform (Command.read agent .prompt)
      let response : Option String ← Prog.perform (Command.read agent .responseText)
      let out ← (readUsage agent).attempt ()
      k prompt response out : SpecialistAgent.Program α).eval (script.answer timing) b =
      (k (b.workshop.agents agent).prompt (b.workshop.agents agent).responseText
        (.ok (b.workshop.agents agent).usage, ())).eval (script.answer timing) b := by
  refine (Prog.eval_bind (script.answer timing) (Prog.perform (Command.read _ _)) _ _).trans ?_
  refine (Prog.eval_bind (script.answer timing) (Prog.perform (Command.read _ _)) _ _).trans ?_
  refine (Prog.eval_bind (script.answer timing) ((readUsage _).attempt ()) _ _).trans ?_
  rw [eval_readUsage]
  rfl

section Evaluations

variable (app : App) {p : SendPayload} {subtask : SubTask}

/-- In process, the event has what the shared object holds after the run. -/
theorem eval_inProcess (hfind : (p.plan.subtasks.find? fun st => st.id = p.subtaskId) = some subtask) (job : Nat)
    (script : Script) (timing : Timing) (w : Workshop) :
    let out := (run (app.specialist (.inProcess subtask.specialist) subtask.specialist) subtask p.completed
      (p.subtaskFeedback.get? p.subtaskId)).eval (script.answer timing) { workshop := w, ticks := 1 }
    let last := out.2.workshop.agents (.inProcess subtask.specialist)
    (branch (app.path false) job p).eval (script.answer timing) { workshop := w } =
      (.ok (endedBranch p subtask .inProcess (timing.now 0) (timing.now out.2.ticks) out.1 last.prompt last.responseText
        (specialistUsage p (app.specialistModels subtask.specialist) last.usage)),
        { out.2 with ticks := out.2.ticks + 1 }) := by
  intro out last
  unfold branch
  rw [hfind]
  refine (Prog.eval_bind (script.answer timing) (Prog.perform Command.now) _ _).trans ?_
  refine (Prog.eval_bind (script.answer timing) (run _ subtask _ _) _ _).trans ?_
  exact (eval_report ..).trans (eval_endBranch hfind ..)

/-- The workshop in which a job starts its run. -/
def SpecialistAgent.Workshop.withJob (w : Workshop) (job : Nat) : Workshop where
  agents := Function.update w.agents (.worker job) {}
  callLogs := Function.update w.callLogs (some job) []

/-- The payload has what the object of the job holds after the run. -/
theorem eval_runSpecialistTask (a : SpecialistAgent) (job : Nat) (context : Dict String SubtaskResult)
    (feedback : Option String) (script : Script) (timing : Timing) (b : Bench) :
    let out := (run (a.withRef (.worker job)) subtask context feedback).eval (script.answer timing)
      { b with workshop := b.workshop.withJob job }
    let last := out.2.workshop.agents (.worker job)
    (runSpecialistTask (a.withRef (.worker job)) subtask context feedback).eval (script.answer timing) b =
      (.ok ⟨out.1, a.modelName, last.prompt, last.responseText, last.usage⟩, out.2) := by
  intro out last
  unfold runSpecialistTask
  refine (Prog.eval_bind (script.answer timing) (Prog.perform (Command.newRegistry _)) _ _).trans ?_
  refine (Prog.eval_bind (script.answer timing) (Prog.perform (Command.newAgent _ _)) _ _).trans ?_
  refine (Prog.eval_bind (script.answer timing) (run _ subtask _ _) _ _).trans ?_
  exact eval_report ..

/-- Through a worker, the event has what the payload has. -/
theorem eval_celery (hfind : (p.plan.subtasks.find? fun st => st.id = p.subtaskId) = some subtask) (job : Nat)
    (script : Script) (timing : Timing) (w : Workshop) :
    let out := (run (app.specialist (.worker job) subtask.specialist) subtask p.completed
      (p.subtaskFeedback.get? p.subtaskId)).eval (script.answer timing) { workshop := w.withJob job, ticks := 1 }
    let last := out.2.workshop.agents (.worker job)
    (branch (app.path true) job p).eval (script.answer timing) { workshop := w } =
      (.ok (endedBranch p subtask .celery (timing.now 0) (timing.now out.2.ticks) out.1 last.prompt last.responseText
        (specialistUsage p (app.specialistModels subtask.specialist) last.usage)),
        { out.2 with ticks := out.2.ticks + 1 }) := by
  intro out last
  have htask : (runSpecialistTask ((app.path true).specialist (.worker job) subtask.specialist) subtask p.completed
        (p.subtaskFeedback.get? p.subtaskId)).eval (script.answer timing)
        ((Prog.perform Command.now).eval (script.answer timing) { workshop := w }).2 =
      (.ok ⟨out.1, app.specialistModels subtask.specialist, last.prompt, last.responseText, last.usage⟩, out.2) :=
    eval_runSpecialistTask (app.specialist (.worker job) subtask.specialist) job p.completed _ script timing _
  unfold branch
  rw [hfind]
  refine (Prog.eval_bind (script.answer timing) (Prog.perform Command.now) _ _).trans ?_
  refine (Prog.eval_bind (script.answer timing) (runSpecialistTask _ subtask _ _) _ _).trans ?_
  refine (Prog.eval_bind (script.answer timing) (Prog.perform (Command.awaitJob _)) _ _).trans ?_
  rw [htask]
  exact eval_endBranch hfind ..

end Evaluations

/-! ### One execution on the two paths -/

/-- Where the plan does not have the subtask, both paths stop before anything is changed. -/
theorem perform_of_missing (app : App) {e : Execution} (h : e.specialist = none) (w : Workshop) :
    perform app e w = (.error (.lookup .stopIteration), w) := by
  have hfind : (e.payload.plan.subtasks.find? fun st => st.id = e.payload.subtaskId) = none := Option.map_eq_none_iff.1 h
  unfold perform branch
  rw [hfind]
  rfl

theorem Execution.specialist_eq {e : Execution} {subtask : SubTask}
    (hfind : (e.payload.plan.subtasks.find? fun st => st.id = e.payload.subtaskId) = some subtask) :
    e.specialist = some subtask.specialist := by
  unfold Execution.specialist
  rw [hfind]
  rfl

/-- The response that an object has after a run is another one on the two paths exactly if the run fails and the shared
object has one of an earlier run. -/
theorem leaves_agree_iff {script : Script} {a : SpecialistAgent} {prompt : String} {usage : TokenUsage}
    {result result' : SubtaskResult} (h : result.untimed = result'.untimed) (before : LastCall) :
    (script.leaves a prompt usage result before).responseText = (script.leaves a prompt usage result' {}).responseText ↔
      (before.responseText ≠ none → script.completes a.lcTools = true) := by
  have houtput : result.untimed.output = result'.untimed.output := congrArg SubtaskResult.output h
  unfold Script.leaves
  by_cases hc : script.completes a.lcTools = true
  · rw [if_pos hc, if_pos hc]
    exact iff_of_true houtput fun _ => hc
  · rw [if_neg hc, if_neg hc]
    constructor
    · exact fun hnone hne => absurd hnone hne
    · exact fun hne => by_contra fun hsome => hc (hne hsome)

theorem leaves_response_iff {script : Script} {a : SpecialistAgent} {prompt : String} {usage : TokenUsage}
    {result : SubtaskResult} (h : script.completes a.lcTools = true → ∃ output, result.output = some output)
    (before : LastCall) :
    (script.leaves a prompt usage result before).responseText ≠ none ↔
      before.responseText ≠ none ∨ script.completes a.lcTools = true := by
  unfold Script.leaves
  by_cases hc : script.completes a.lcTools = true
  · obtain ⟨output, houtput⟩ := h hc
    rw [if_pos hc, houtput]
    exact iff_of_true (by simp) (Or.inr hc)
  · rw [if_neg hc]
    exact (or_iff_left hc).symm

/-- What an execution for a subtask of the plan leaves in the object that it uses, given what the object had before. -/
def Execution.leaves (e : Execution) (app : App) (subtask : SubTask) (usage : TokenUsage) (result : SubtaskResult)
    (before : LastCall) : LastCall :=
  e.script.leaves (app.specialist (.worker e.job) subtask.specialist)
    (userPrompt subtask e.payload.completed (e.payload.subtaskFeedback.get? e.payload.subtaskId)) usage result before

/-- The branch that an execution returns, with what its object has after the run. -/
def Execution.returns (e : Execution) (app : App) (subtask : SubTask) (via : ExecutedVia) (start ended : ℚ)
    (result : SubtaskResult) (last : LastCall) : Branch :=
  endedBranch e.payload subtask via start ended result last.prompt last.responseText
    (specialistUsage e.payload (app.specialistModels subtask.specialist) last.usage)

/-- The two paths come to one result; in process the run is made on the shared object, through a worker on a new one. -/
theorem exists_performed (app : App) {e : Execution} {subtask : SubTask}
    (hfind : (e.payload.plan.subtasks.find? fun st => st.id = e.payload.subtaskId) = some subtask) (w w' : Workshop) :
    ∃ (usage : TokenUsage) (result result' : SubtaskResult) (ended ended' : ℚ) (u : Workshop),
      perform (app.path false) e w = (.ok (e.returns app subtask .inProcess (e.inProcess.now 0) ended result
        (u.agents (.inProcess subtask.specialist))), u) ∧
      (perform (app.path true) e w').1 = .ok (e.returns app subtask .celery (e.celery.now 0) ended' result'
        (e.leaves app subtask usage result' {})) ∧
      result.untimed = result'.untimed ∧
      (e.script.completes (app.specialistTools subtask.specialist) = true → ∃ output, result.output = some output) ∧
      u.agents (.inProcess subtask.specialist) =
        e.leaves app subtask usage result (w.agents (.inProcess subtask.specialist)) ∧
      ∀ other, other ≠ .inProcess subtask.specialist → u.agents other = w.agents other := by
  let ref := AgentRef.inProcess subtask.specialist
  let job := AgentRef.worker e.job
  let feedback := e.payload.subtaskFeedback.get? e.payload.subtaskId
  let b : Bench := { workshop := w, ticks := 1 }
  let b' : Bench := { workshop := w'.withJob e.job, ticks := 1 }
  let out := (run (app.specialist ref subtask.specialist) subtask e.payload.completed feedback).eval
    (e.script.answer e.inProcess) b
  let out' := (run (app.specialist job subtask.specialist) subtask e.payload.completed feedback).eval
    (e.script.answer e.celery) b'
  obtain ⟨huntimed, houtput, ⟨usage, hlast, hlast'⟩, hothers⟩ :
      RunsAlike e.script (app.specialist job subtask.specialist) (userPrompt subtask e.payload.completed feedback) ref job
        w (w'.withJob e.job) out out' :=
    run_alike e.script e.inProcess e.celery (app.specialist job subtask.specialist) ref job subtask e.payload.completed
      feedback b b' ⟨rfl, rfl⟩ rfl
  have hnew : (w'.withJob e.job).agents job = {} := Function.update_self ..
  have hinProcess : perform (app.path false) e w = (.ok (e.returns app subtask .inProcess (e.inProcess.now 0)
      (e.inProcess.now out.2.ticks) out.1 (out.2.workshop.agents ref)), out.2.workshop) :=
    congrArg (fun r => (r.1, r.2.workshop)) (eval_inProcess app hfind e.job e.script e.inProcess w)
  have hcelery : (perform (app.path true) e w').1 = .ok (e.returns app subtask .celery (e.celery.now 0)
      (e.celery.now out'.2.ticks) out'.1 (out'.2.workshop.agents job)) :=
    congrArg Prod.fst (eval_celery app hfind e.job e.script e.celery w')
  rw [hlast', hnew] at hcelery
  exact ⟨usage, out.1, out'.1, _, _, out.2.workshop, hinProcess, hcelery, huntimed, houtput, hlast, hothers⟩

/-- What an execution does: the two paths agree on it exactly if its run succeeds or the shared object has no response
of an earlier run, and the object has a response afterwards if it had one or the run succeeds. -/
theorem perform_agree (app : App) (e : Execution) (w w' : Workshop) :
    ((perform (app.path false) e w).1.map Branch.untimed = (perform (app.path true) e w').1.map Branch.untimed ↔
      ∀ t, e.specialist = some t → (w.agents (.inProcess t)).responseText ≠ none → e.completes app = true) ∧
      ∀ t, ((perform (app.path false) e w).2.agents (.inProcess t)).responseText ≠ none ↔
        (w.agents (.inProcess t)).responseText ≠ none ∨ e.specialist = some t ∧ e.completes app = true := by
  cases hfind : e.payload.plan.subtasks.find? fun st => st.id = e.payload.subtaskId with
  | none =>
    have hmissing : e.specialist = none := Option.map_eq_none_iff.2 hfind
    rw [perform_of_missing _ hmissing, perform_of_missing _ hmissing, hmissing]
    exact ⟨iff_of_true rfl fun t ht => absurd ht (by simp), fun t => by simp⟩
  | some subtask =>
    have hspecialist : e.specialist = some subtask.specialist := Execution.specialist_eq hfind
    have hcompletes : e.completes app = e.script.completes (app.specialistTools subtask.specialist) := by
      unfold Execution.completes
      rw [hspecialist]
    obtain ⟨usage, result, result', ended, ended', u, hinProcess, hcelery, huntimed, houtput, hlast, hothers⟩ :=
      exists_performed app hfind w w'
    rw [hinProcess, hcelery, hlast, hcompletes, hspecialist]
    constructor
    · refine (Except.ok.injEq ..).to_iff.trans ((endedBranch_agree_iff huntimed).trans ?_)
      refine (leaves_agree_iff huntimed _).trans ?_
      constructor
      · rintro h t ht
        obtain rfl := Option.some.inj ht
        exact h
      · exact fun h => h _ rfl
    · intro t
      show (u.agents (.inProcess t)).responseText ≠ none ↔ _
      by_cases ht : t = subtask.specialist
      · subst ht
        rw [hlast]
        refine (leaves_response_iff houtput _).trans (or_congr_right ?_)
        exact (and_iff_right rfl).symm
      · have hne : AgentRef.inProcess t ≠ .inProcess subtask.specialist := fun h => ht (AgentRef.inProcess.inj h)
        rw [hothers _ hne]
        simp [Ne.symm ht]

/-! ### What always agrees -/

def NodeAttributes.withoutResponse : NodeAttributes → NodeAttributes
  | .runSpecialist sid output error retried toolCalls prompt _ via =>
    .runSpecialist sid output error retried toolCalls prompt Option.none via
  | attributes => attributes

/-- A branch but for times and the response in its event. -/
def Branch.withoutResponse (branch : Branch) : Branch :=
  { branch.untimed with
    event := { branch.untimed.event with attributes := branch.untimed.event.attributes.withoutResponse } }

theorem perform_withoutResponse (app : App) (e : Execution) (w w' : Workshop) :
    (perform (app.path false) e w).1.map Branch.withoutResponse =
      (perform (app.path true) e w').1.map Branch.withoutResponse := by
  cases hfind : e.payload.plan.subtasks.find? fun st => st.id = e.payload.subtaskId with
  | none =>
    have hmissing : e.specialist = none := Option.map_eq_none_iff.2 hfind
    rw [perform_of_missing _ hmissing, perform_of_missing _ hmissing]
  | some subtask =>
    obtain ⟨usage, result, result', ended, ended', u, hinProcess, hcelery, huntimed, -, hlast, -⟩ :=
      exists_performed app hfind w w'
    rw [hinProcess, hcelery, hlast]
    refine congrArg Except.ok ?_
    unfold Branch.withoutResponse Execution.returns
    rw [untimed_endedBranch, untimed_endedBranch, huntimed]
    rfl

/-- But for times and the response in the event, the two paths agree on every sequence of executions. -/
theorem outcomes_withoutResponse (app : App) (es : List Execution) (w w' : Workshop) :
    (outcomes (app.path false) es w).map (·.map Branch.withoutResponse) =
      (outcomes (app.path true) es w').map (·.map Branch.withoutResponse) := by
  induction es generalizing w w' with
  | nil => rfl
  | cons e es ih =>
    rw [outcomes, outcomes, List.map_cons, List.map_cons, perform_withoutResponse app e w w', ih]

/-! ### Sequences of executions -/

theorem exists_specialist_of_completes {app : App} {e : Execution} (h : e.completes app = true) :
    ∃ t, e.specialist = some t := by
  unfold Execution.completes at h
  cases hs : e.specialist with
  | some t => exact ⟨t, rfl⟩
  | none => exact absurd (hs ▸ h) (by simp)

/-- The two paths agree from workshops in use: no run fails in the presence of a response. -/
theorem outcomes_agree (app : App) (es : List Execution) (w w' : Workshop) :
    (outcomes (app.path false) es w).map (·.map Branch.untimed) =
        (outcomes (app.path true) es w').map (·.map Branch.untimed) ↔
      (∀ e ∈ es, ∀ t, e.specialist = some t → (w.agents (.inProcess t)).responseText ≠ none → e.completes app = true) ∧
        NoLaterFailure app es := by
  induction es generalizing w w' with
  | nil => exact iff_of_true rfl ⟨fun e he => absurd he List.not_mem_nil, List.Pairwise.nil⟩
  | cons e es ih =>
    obtain ⟨hagree, hafter⟩ := perform_agree app e w w'
    unfold NoLaterFailure at ih ⊢
    rw [outcomes, outcomes, List.map_cons, List.map_cons, List.cons.injEq, hagree, ih, List.pairwise_cons,
      List.forall_mem_cons]
    constructor
    · rintro ⟨hnow, hlater, hpair⟩
      refine ⟨⟨hnow, fun later hl t ht hold => ?_⟩, fun later hl hc hsame => ?_, hpair⟩
      · exact hlater later hl t ht ((hafter t).2 (Or.inl hold))
      · obtain ⟨t, ht⟩ := exists_specialist_of_completes hc
        exact hlater later hl t (hsame ▸ ht) ((hafter t).2 (Or.inr ⟨ht, hc⟩))
    · rintro ⟨⟨hnow, hold⟩, hpast, hpair⟩
      refine ⟨hnow, fun later hl t ht hresponse => ?_, hpair⟩
      rcases (hafter t).1 hresponse with hw | ⟨hsame, hc⟩
      · exact hold later hl t ht hw
      · exact hpast later hl hc (hsame.trans ht.symm)

/-- The two paths agree on a sequence of executions exactly if none of them fails after one of the same specialist type
that has succeeded. -/
theorem paths_agree_iff (app : App) (es : List Execution) : PathsAgree app es ↔ NoLaterFailure app es := by
  refine (outcomes_agree app es newWorkshop newWorkshop).trans (and_iff_right ?_)
  intro e _ t _ hresponse
  exact absurd rfl hresponse

/-! ### A failure after a success -/

/-- The response in the event. -/
def Branch.response (branch : Branch) : Option String :=
  match branch.event.attributes with
  | .runSpecialist _ _ _ _ _ _ response _ => response
  | _ => none

theorem Branch.response_untimed (branch : Branch) : branch.untimed.response = branch.response := by
  obtain ⟨run, update, event⟩ := branch
  obtain ⟨node, agent, status, startedAt, endedAt, attributes, usage⟩ := event
  cases attributes with
  | _ => rfl

/-- The responses in the events of executions. -/
def responses (outs : List (Except NodeError Branch)) : List (Except NodeError (Option String)) :=
  outs.map (·.map Branch.response)

theorem responses_of_pathsAgree {app : App} {es : List Execution} (h : PathsAgree app es) :
    responses (outcomes (app.path false) es newWorkshop) = responses (outcomes (app.path true) es newWorkshop) := by
  have hresponse : ∀ outs : List (Except NodeError Branch),
      responses (outs.map (·.map Branch.untimed)) = responses outs := by
    intro outs
    unfold responses
    rw [List.map_map]
    refine List.map_congr_left fun out _ => ?_
    cases out with
    | error e => rfl
    | ok branch => exact congrArg Except.ok branch.response_untimed
  rw [← hresponse, h, hresponse]

private def plainApp : App where
  settings := Settings.default
  useCelery := false
  specialistModels _ := "gpt-5"
  specialistTools _ := []
  dumpPlan plan := plan.goal
  dumpReview result := result.feedback
  dumpMemory memory := memory.approachSummary

/-- An execution for the only subtask of a plan; the model answers at once, with `reply`. -/
private def plainExecution (reply : Except LlmError ToolCallingMessage) (answer : String) : Execution where
  payload := {
    plan := samplePlan [sampleSubtask "a" []]
    completed := ∅
    retryCounts := ∅
    subtaskFeedback := ∅
    subtaskId := "a"
    taskId := none }
  script := {
    bound := .ok ()
    replies := fun _ => reply
    final := .ok (⟨answer, none⟩, some ⟨answer, ⟨1 / 2, half_isScore⟩⟩)
    used := fun _ => .error "Unknown tool" }
  job := 0
  inProcess := ⟨fun _ => 0, fun _ => 0⟩
  celery := ⟨fun _ => 0, fun _ => 0⟩

/-- In process, the event of a run that has failed has the response of the run before. -/
theorem stale_response : ∃ app es, es.length = 2 ∧
    responses (outcomes (app.path false) es newWorkshop) = [.ok (some "Found."), .ok (some "Found.")] ∧
    responses (outcomes (app.path true) es newWorkshop) = [.ok (some "Found."), .ok none] ∧ ¬ PathsAgree app es := by
  let es := [plainExecution (.ok ⟨⟨"", none⟩, []⟩) "Found.", plainExecution (.error ⟨"Overloaded"⟩) ""]
  have hinProcess : responses (outcomes (plainApp.path false) es newWorkshop) =
      [.ok (some "Found."), .ok (some "Found.")] := rfl
  have hcelery : responses (outcomes (plainApp.path true) es newWorkshop) = [.ok (some "Found."), .ok none] := rfl
  refine ⟨plainApp, es, rfl, hinProcess, hcelery, fun hagree => ?_⟩
  have heq := responses_of_pathsAgree hagree
  rw [hinProcess, hcelery] at heq
  exact absurd heq (by simp)

end AgentOrchestrator
