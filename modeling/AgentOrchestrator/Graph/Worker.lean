import AgentOrchestrator.Agents.Specialist
import AgentOrchestrator.Graph.Nodes

/-!
# Specialists in worker processes

With `use_celery` the node `run_specialist` dispatches a job to a worker and waits for its payload.  An exception of the
job and a timeout are raised by the wait, and nothing in the node catches them.  So a batch goes on as one in process
does exactly if every job of it returns a payload (`contained_iff`).
-/

namespace AgentOrchestrator

open Fallible

/-- What the task of a worker returns. -/
structure Payload where
  subtaskResult : SubtaskResult
  model : String
  prompt : Option String
  response : Option String
  usage : Option TokenUsage
deriving DecidableEq

/-- How a job ends for the one who waits for it: it returns, raises, or does not answer in time. -/
inductive JobOutcome where
  | returned (payload : Payload)
  | raised (message : String)
  | timedOut
deriving DecidableEq

/-- What stops a branch of the graph: a lookup, an attribute of `None`, or the wait for a job. -/
inductive NodeError where
  | lookup (e : RunError)
  | attribute (message : String)
  | raised (message : String)
  | timedOut
deriving DecidableEq

/-- `.get(timeout=180)`. -/
def JobOutcome.get : JobOutcome → Except NodeError Payload
  | .returned payload => .ok payload
  | .raised message => .error (.raised message)
  | .timedOut => .error .timedOut

/-- `run_specialist` through a worker. -/
def runSpecialistCelery (outcome : JobOutcome) (p : SendPayload) : Except NodeError (SpecialistRun × Update) :=
  match p.plan.subtasks.find? fun st => st.id = p.subtaskId with
  | none => .error (.lookup .stopIteration)
  | some _ => do
    let payload ← outcome.get
    (runSpecialist payload.subtaskResult p).mapError .lookup

/-- A batch whose jobs end as `outcome` says; one exception discards the whole of it. -/
def runBatchCelery (outcome : String → JobOutcome) (batch : List SendPayload) :
    Except NodeError (List (SpecialistRun × Update)) :=
  batch.mapM fun p => runSpecialistCelery (outcome p.subtaskId) p

/-- The step of the graph that runs a batch through workers. -/
def superstep (outcome : String → JobOutcome) (s : OrchestratorState) (batch : List SendPayload) :
    Except NodeError Config := do
  let branches ← runBatchCelery outcome batch
  return ⟨applyAll s (branches.map Prod.snd), .node .routeBatch⟩

/-! ### The task of a worker -/

open SpecialistAgent in
/-- `run_specialist_task`, with the objects it makes. -/
def runSpecialistTask (agent : SpecialistAgent) (subtask : SubTask) (context : Dict String SubtaskResult)
    (feedback : Option String) : SpecialistAgent.Program (Except String Payload) := do
  Prog.perform (Command.newRegistry agent.ref.registry)
  let made : Except LlmError Unit ← Prog.perform (Command.newAgent agent.ref agent.modelName)
  match made with
  | .error e => return .error e.message
  | .ok _ =>
    let result ← run agent subtask context feedback
    let prompt : Option String ← Prog.perform (Command.read agent.ref .prompt)
    let response : Option String ← Prog.perform (Command.read agent.ref .responseText)
    let (usage, _) ← (readUsage agent.ref).attempt ()
    return usage.map fun usage =>
      { subtaskResult := result
        model := agent.modelName
        prompt := prompt
        response := response
        usage := usage }

/-- What the orchestrator sees of a job. -/
def JobOutcome.of (wait : SpecialistAgent.Wait) (result : Except String Payload) : JobOutcome :=
  match wait, result with
  | .answered, .ok payload => .returned payload
  | .answered, .error message => .raised message
  | .lost message, _ => .raised message
  | .timedOut, _ => .timedOut

/-! ### Containment -/

/-- The job has delivered a successful result. -/
def JobOutcome.succeeded : JobOutcome → Bool
  | .returned payload => payload.subtaskResult.success
  | _ => false

/-- The run goes on as after a batch in process, with a result for every subtask that counts as failed unless its job
has delivered a successful one. -/
def Contained (cfg : Settings) (s : OrchestratorState) (batch : List SendPayload) (outcome : String → JobOutcome) : Prop :=
  ∃ result e c, superstep outcome s batch = .ok c ∧ step cfg ⟨s, .send batch⟩ (.results result) = .ok (e, c) ∧
    ∀ p ∈ batch, (result p.subtaskId).success = (outcome p.subtaskId).succeeded ∧
      c.state.completed.get? p.subtaskId = some (result p.subtaskId) ∧
      c.state.retryCounts.get? p.subtaskId = some ((s.retryCounts.get? p.subtaskId).getD 0 +
        if (outcome p.subtaskId).succeeded then 0 else 1)

/-- Every job of the batch returns a payload. -/
def AllReturn (batch : List SendPayload) (outcome : String → JobOutcome) : Prop :=
  ∀ p ∈ batch, ∃ payload, outcome p.subtaskId = .returned payload

/-- The result in the payload. -/
def JobOutcome.result (sid : String) : JobOutcome → SubtaskResult
  | .returned payload => payload.subtaskResult
  | _ => { subtaskId := sid, specialist := .research, success := false }

theorem runSpecialistCelery_returned (payload : Payload) (p : SendPayload) :
    runSpecialistCelery (.returned payload) p = (runSpecialist payload.subtaskResult p).mapError .lookup := by
  unfold runSpecialistCelery
  split
  · rename_i hfind
    unfold runSpecialist
    rw [hfind]
    rfl
  · rfl

/-- A batch whose jobs all return is run as one in process with their results. -/
theorem runBatchCelery_of_allReturn {batch : List SendPayload} {outcome : String → JobOutcome}
    (h : AllReturn batch outcome) {branches : List (SpecialistRun × Update)}
    (hb : runBatch (fun sid => (outcome sid).result sid) batch = .ok branches) :
    runBatchCelery outcome batch = .ok branches := by
  unfold runBatchCelery
  unfold runBatch at hb
  rw [mapM_eq_ok_iff] at hb ⊢
  induction hb with
  | nil => exact .nil
  | @cons p b batch branches hp _ ih =>
    refine .cons ?_ (ih fun q hq => h q (List.mem_cons_of_mem _ hq))
    obtain ⟨payload, hpayload⟩ := h p List.mem_cons_self
    have hrun : runSpecialist ((outcome p.subtaskId).result p.subtaskId) p = .ok b := hp
    rw [hpayload] at hrun ⊢
    rw [runSpecialistCelery_returned]
    show Except.mapError _ (runSpecialist ((JobOutcome.returned payload).result p.subtaskId) p) = _
    rw [hrun]
    rfl

/-- A job that raises or does not answer in time takes the batch down. -/
theorem allReturn_of_runBatchCelery {batch : List SendPayload} {outcome : String → JobOutcome}
    {branches : List (SpecialistRun × Update)} (h : runBatchCelery outcome batch = .ok branches) :
    AllReturn batch outcome := by
  unfold runBatchCelery at h
  rw [mapM_eq_ok_iff] at h
  induction h with
  | nil => exact fun p hp => absurd hp List.not_mem_nil
  | @cons p b batch branches hp _ ih =>
    intro q hq
    rcases List.mem_cons.1 hq with rfl | hq
    · unfold runSpecialistCelery at hp
      split at hp
      · exact absurd hp (by simp)
      · obtain ⟨payload, hget, -⟩ := bind_eq_ok_iff.1 hp
        cases houtcome : outcome q.subtaskId with
        | returned payload => exact ⟨payload, rfl⟩
        | raised message =>
          rw [houtcome] at hget
          exact absurd hget (by simp [JobOutcome.get])
        | timedOut =>
          rw [houtcome] at hget
          exact absurd hget (by simp [JobOutcome.get])
    · exact ih q hq

/-- Failures of workers are contained exactly where there are none: in a batch whose jobs all return. -/
theorem contained_iff {cfg : Settings} {s : OrchestratorState} {batch : List SendPayload}
    (h : decideNextBatch cfg s = .ok (.send batch)) (outcome : String → JobOutcome) :
    Contained cfg s batch outcome ↔ AllReturn batch outcome := by
  constructor
  · rintro ⟨result, e, c, hstep, -, -⟩
    obtain ⟨branches, hb, -⟩ := bind_eq_ok_iff.1 hstep
    exact allReturn_of_runBatchCelery hb
  · intro hall
    obtain ⟨plan, ready, -, rfl, hready⟩ := exists_ready_of_send h
    obtain ⟨branches, hb⟩ := exists_runBatch s (fun sid => (outcome sid).result sid) hready
    obtain ⟨-, heffect⟩ := batchEffect_of_runBatch hb s
    have hcelery := runBatchCelery_of_allReturn hall hb
    refine ⟨fun sid => (outcome sid).result sid, .specialists (branches.map Prod.fst),
      ⟨applyAll s (branches.map Prod.snd), .node .routeBatch⟩, ?_, ?_, fun p hp => ?_⟩
    · unfold superstep
      rw [hcelery]
      rfl
    · simp [step, hb]
    · have hsucceeded : ((outcome p.subtaskId).result p.subtaskId).success = (outcome p.subtaskId).succeeded := by
        obtain ⟨payload, hpayload⟩ := hall p hp
        rw [hpayload]
        rfl
      have hmem : p.subtaskId ∈ ready := by
        obtain ⟨sid, hsid, rfl⟩ := List.mem_map.1 hp
        exact hsid
      refine ⟨hsucceeded, ?_, ?_⟩
      · rw [heffect.completed, if_pos hmem]
      · rw [heffect.retryCounts, if_pos hmem, hsucceeded]

/-! ### A plan with one subtask -/

/-- The state in which the only subtask is dispatched. -/
private def dispatching : OrchestratorState :=
  (sampleStart.apply (intake "t" none sampleStart)).apply (planTask (samplePlan [sampleSubtask "a" []]))

private theorem decide_dispatching : decideNextBatch Settings.default dispatching =
    .ok (.send [sendPayload (samplePlan [sampleSubtask "a" []]) dispatching "a"]) := by
  decide +kernel

/-- A job that returns a failed result is contained. -/
theorem contained_failed : Contained Settings.default dispatching
    [sendPayload (samplePlan [sampleSubtask "a" []]) dispatching "a"]
    fun sid => .returned ⟨sampleResult false sid, "gpt-5", none, none, none⟩ :=
  (contained_iff decide_dispatching _).2 fun _ _ => ⟨_, rfl⟩

/-- A job that does not answer in time aborts the run. -/
theorem timeout_aborts : decideNextBatch Settings.default dispatching =
      .ok (.send [sendPayload (samplePlan [sampleSubtask "a" []]) dispatching "a"]) ∧
    superstep (fun _ => .timedOut) dispatching [sendPayload (samplePlan [sampleSubtask "a" []]) dispatching "a"] =
      .error .timedOut ∧
    ¬ Contained Settings.default dispatching [sendPayload (samplePlan [sampleSubtask "a" []]) dispatching "a"]
      fun _ => .timedOut := by
  have haborts : superstep (fun _ => .timedOut) dispatching
      [sendPayload (samplePlan [sampleSubtask "a" []]) dispatching "a"] = .error .timedOut := rfl
  refine ⟨decide_dispatching, haborts, ?_⟩
  rintro ⟨result, e, c, hstep, -, -⟩
  exact absurd (haborts.symm.trans hstep) (by simp)

end AgentOrchestrator
