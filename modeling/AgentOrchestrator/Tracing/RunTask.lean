import AgentOrchestrator.Tracing.Persistence

/-!
# Running a task without a trace

`run_task` is the loop that `run_traced_task` repeats with its recording in between.  A `Recorder` without its store is
seen as a `TaskRunner`: while events are persisted the graph is where its `invoke` has left it.  So the steps of the
recorder are steps of `run_task` or are not seen, and each step of `run_task` is one of the recorder after some that are
not seen; the two have the same runs (`traced_iff_run`).
-/

namespace AgentOrchestrator

/-! ### The loop of `run_task` -/

/-- Where `run_task` is: in an `invoke`, with the decision it resumes the graph with; waiting for a decision; about to
return; or it has returned or raised an exception. -/
inductive TaskPhase where
  | invoking (resume : Option HumanDecision)
  | waiting
  | returning
  | returned
  | raised
deriving DecidableEq

structure TaskRunner where
  graph : Traced
  queue : ApprovalQueue.System
  phase : TaskPhase

inductive TaskLabel where
  | graph (l : TraceLabel)
  | submitted (now : Nat)
  | prompted
  | queue (read : Option (Option ApprovalQueue.Approval)) (e : ApprovalQueue.Event)
  | resumed (decision : HumanDecision)
  | noted
  | returned
  | raised

/-- The steps of `run_task` and of the reviewers. -/
inductive TaskStep (rec : Recording) : TaskRunner → TaskLabel → TaskRunner → Prop
  | graph {r : TaskRunner} {resume : Option HumanDecision} {l : TraceLabel} {c : Traced}
      (hp : r.phase = .invoking resume) (h : TracedStep rec.app r.graph l c) (hl : l.decision = resume) :
      TaskStep rec r (.graph l) { r with graph := c, phase := .invoking none }
  | submitted {r : TaskRunner} {request : EscalationRequest} {source : EscalationSource} {now : Nat}
      {queue : ApprovalQueue.System} (hp : r.phase = .invoking none) (hreturns : r.graph.Returns rec.app.settings)
      (hn : r.graph.config.next = .node .humanEscalation) (hq : rec.useQueue = true)
      (he : escalate rec.app.settings r.graph.config.state = .ok (request, source))
      (h : ApprovalQueue.step rec.taskId r.queue (.escalate request source.value now) = .ok (.quiet, queue)) :
      TaskStep rec r (.submitted now) { r with queue := queue, phase := .waiting }
  | prompted {r : TaskRunner} (hp : r.phase = .invoking none) (hreturns : r.graph.Returns rec.app.settings)
      (hn : r.graph.config.next = .node .humanEscalation) (hq : rec.useQueue = false) :
      TaskStep rec r .prompted { r with phase := .waiting }
  | queue {r : TaskRunner} {a : ApprovalQueue.Action} {e : ApprovalQueue.Event} {queue : ApprovalQueue.System}
      (hq : rec.useQueue = true) (ha : a.escalates = false) (hw : a = .runner → r.phase = .waiting)
      (h : ApprovalQueue.step rec.taskId r.queue a = .ok (e, queue)) (he : e.resumes = false) :
      TaskStep rec r (.queue (r.queue.read rec.taskId a) e) { r with queue := queue }
  | resumed {r : TaskRunner} {n : Nat} {decision : ApprovalQueue.Aimed} {queue : ApprovalQueue.System}
      (hp : r.phase = .waiting) (hq : rec.useQueue = true)
      (h : ApprovalQueue.step rec.taskId r.queue .runner = .ok (.resumed n decision, queue)) :
      TaskStep rec r (.resumed decision.decision)
        { r with queue := queue, phase := .invoking (some decision.decision) }
  | answered {r : TaskRunner} (decision : HumanDecision) (hp : r.phase = .waiting) (hq : rec.useQueue = false) :
      TaskStep rec r (.resumed decision) { r with phase := .invoking (some decision) }
  | noted {r : TaskRunner} {createdAt resolvedAt : Nat} (hp : r.phase = .invoking none)
      (hreturns : r.graph.Returns rec.app.settings) (hn : r.graph.config.next = .finish) :
      TaskStep rec r .noted
        { r with queue := notified rec r.graph.config.state r.queue createdAt resolvedAt, phase := .returning }
  | returned {r : TaskRunner} (hp : r.phase = .returning) : TaskStep rec r .returned { r with phase := .returned }
  | raised {r : TaskRunner} (hp : r.phase ≠ .returned) : TaskStep rec r .raised { r with phase := .raised }

/-- The call of `run_task`, with an id that is new to the queue. -/
structure TaskBegins (rec : Recording) (r : TaskRunner) : Prop where
  config : ∃ task userId requireHumanApproval,
    r.graph.config = start (initialState rec task userId requireHumanApproval)
  events : r.graph.events = []
  batch : r.graph.batch = none
  queue : ∃ store, store.approvals.get? rec.taskId = none ∧ r.queue = ApprovalQueue.start store
  phase : r.phase = .invoking none

/-! ### What is seen of the recorder -/

def Phase.task : Phase → TaskPhase
  | .invoking resume => .invoking resume
  | .recording _ => .invoking none
  | .waiting => .waiting
  | .noting _ => .invoking none
  | .closing _ => .returning
  | .returned => .returned
  | .raised => .raised

def Recorder.task (r : Recorder) : TaskRunner := ⟨r.graph, r.queue, r.phase.task⟩

def RecorderLabel.task : RecorderLabel → Option TaskLabel
  | .graph l => some (.graph l)
  | .invoked => none
  | .persisted => none
  | .submitted now => some (.submitted now)
  | .prompted => some .prompted
  | .queue read e => some (.queue read e)
  | .resumed decision => some (.resumed decision)
  | .measured _ => none
  | .noted => some .noted
  | .finished => some .returned
  | .raised => some .raised
  | .others => none

variable {rec : Recording} {r r' : Recorder} {l : RecorderLabel}

theorem Begins.task (h : Begins rec r) : TaskBegins rec r.task where
  config := h.config
  events := h.events
  batch := h.batch
  queue := h.queue
  phase := by
    show r.phase.task = _
    rw [h.phase]
    rfl

/-- While events are persisted, and after that, the graph has returned. -/
def Halted (settings : Settings) (graph : Traced) : Phase → Prop
  | .recording _ => graph.Returns settings
  | .noting _ => graph.Returns settings ∧ graph.config.next = .finish
  | _ => True

theorem RecorderStep.halted (h : Halted rec.app.settings r.graph r.phase) (hs : RecorderStep rec r l r') :
    Halted rec.app.settings r'.graph r'.phase := by
  cases hs with
  | invoked hp hreturns => exact hreturns
  | persisted hp =>
    rw [hp] at h
    exact h
  | measured hp hn =>
    rw [hp] at h
    exact ⟨h, hn⟩
  | queue hq ha hw hqueue he => exact h
  | others store hspans ht => exact h
  | _ => trivial

/-- The step lemma: a step of the recorder is one of `run_task`, or it is not seen. -/
theorem RecorderStep.task (h : Halted rec.app.settings r.graph r.phase) (hs : RecorderStep rec r l r') :
    (∃ l', l.task = some l' ∧ TaskStep rec r.task l' r'.task) ∨ l.task = none ∧ r'.task = r.task := by
  have hphase : ∀ phase, r.phase = phase → r.task.phase = phase.task := fun phase hp => congrArg Phase.task hp
  cases hs with
  | graph hp hgraph hl => exact Or.inl ⟨_, rfl, .graph (hphase _ hp) hgraph hl⟩
  | invoked hp hreturns => exact Or.inr ⟨rfl, congrArg (TaskRunner.mk r.graph r.queue) (hphase _ hp).symm⟩
  | persisted hp => exact Or.inr ⟨rfl, congrArg (TaskRunner.mk r.graph r.queue) (hphase _ hp).symm⟩
  | submitted hp hn hq he hqueue =>
    rw [hp] at h
    exact Or.inl ⟨_, rfl, .submitted (hphase _ hp) h hn hq he hqueue⟩
  | prompted hp hn hq =>
    rw [hp] at h
    exact Or.inl ⟨_, rfl, .prompted (hphase _ hp) h hn hq⟩
  | queue hq ha hw hqueue he => exact Or.inl ⟨_, rfl, .queue hq ha (fun hrunner => hphase _ (hw hrunner)) hqueue he⟩
  | resumed hp hq hqueue => exact Or.inl ⟨_, rfl, .resumed (hphase _ hp) hq hqueue⟩
  | answered decision hp hq => exact Or.inl ⟨_, rfl, .answered decision (hphase _ hp) hq⟩
  | measured hp hn => exact Or.inr ⟨rfl, congrArg (TaskRunner.mk r.graph r.queue) (hphase _ hp).symm⟩
  | noted hp =>
    rw [hp] at h
    exact Or.inl ⟨_, rfl, .noted (hphase _ hp) h.1 h.2⟩
  | finished hp hfinish => exact Or.inl ⟨_, rfl, .returned (hphase _ hp)⟩
  | raised hp =>
    refine Or.inl ⟨_, rfl, .raised fun hreturned => hp ?_⟩
    change r.phase.task = .returned at hreturned
    cases hr : r.phase with
    | returned => rfl
    | _ => exact absurd (hr ▸ hreturned) (by simp [Phase.task])
  | others store hspans ht => exact Or.inr ⟨rfl, rfl⟩

/-! ### The recorder follows -/

/-- Nothing is being recorded, and the task has its row. -/
structure AtRest (rec : Recording) (r : Recorder) : Prop where
  rowed : Rowed rec r
  phase : ∀ spans ms, r.phase ≠ .recording spans ∧ r.phase ≠ .noting ms

theorem Rowed.exec {tr : List RecorderLabel} (h : Rowed rec r) (hr : Exec (RecorderStep rec) r tr r') :
    Rowed rec r' :=
  hr.stateInvariant (Rowed rec) h fun _ _ _ ht hs => RecorderStep.rowed ht hs

/-- What is recorded is persisted without being seen. -/
theorem exec_persist {spans : List Span} (hp : r.phase = .recording spans) : ∃ tr store,
    Exec (RecorderStep rec) r tr { r with store := store, phase := .recording [] } ∧
      tr.filterMap RecorderLabel.task = [] := by
  induction spans generalizing r with
  | nil => exact ⟨[], r.store, hp ▸ .refl, rfl⟩
  | cons span spans ih =>
    have hstep : RecorderStep rec r .persisted _ := .persisted hp
    obtain ⟨tr, store, hr, htr⟩ := ih (r := { r with
      store := r.store.addSpan rec.taskId span
      phase := .recording spans }) rfl
    exact ⟨.persisted :: tr, store, hr.cons hstep, htr⟩

/-- The graph has returned, and all of its events are persisted. -/
theorem exec_record (hp : r.phase = .invoking none) (hreturns : r.graph.Returns rec.app.settings) : ∃ tr store,
    Exec (RecorderStep rec) r tr { r with store := store, phase := .recording [] } ∧
      tr.filterMap RecorderLabel.task = [] := by
  have hinvoked : RecorderStep rec r .invoked _ := .invoked hp hreturns
  obtain ⟨tr, store, hr, htr⟩ := @exec_persist rec { r with
    phase := .recording ((r.graph.events.drop r.recorded).flatMap (spansOfEvent rec.pricing)) } _ rfl
  exact ⟨.invoked :: tr, store, hr.cons hinvoked, htr⟩

theorem exists_finishTask {store : TraceStore} {taskId : String} {row : TaskRecord}
    (h : store.getTask taskId = some row) (status : TaskStatus) (taskType : Option String) (humanReviewMs : ℚ)
    (escalationCount : Nat) (now : ℚ) :
    ∃ store', store.finishTask taskId status taskType humanReviewMs escalationCount now = .ok store' := by
  unfold TraceStore.finishTask
  rw [show store.tasks.get? taskId = some row from h]
  exact ⟨_, rfl⟩

/-- Steps that are not seen, and one that is. -/
theorem AtRest.seen (h : AtRest rec r) {tr : List RecorderLabel} {r₁ : Recorder} {l' : TaskLabel}
    (hr : Exec (RecorderStep rec) r tr r₁) (htr : tr.filterMap RecorderLabel.task = [])
    (hs : RecorderStep rec r₁ l r') (hl : l.task = some l')
    (hphase : ∀ spans ms, r'.phase ≠ .recording spans ∧ r'.phase ≠ .noting ms) :
    ∃ tr r₂, Exec (RecorderStep rec) r tr r₂ ∧ AtRest rec r₂ ∧ tr.filterMap RecorderLabel.task = [l'] ∧
      r₂.task = r'.task := by
  refine ⟨tr ++ [l], r', hr.snoc hs, ⟨RecorderStep.rowed (h.rowed.exec hr) hs, hphase⟩, ?_, rfl⟩
  rw [List.filterMap_append, htr, List.filterMap_cons_some hl]
  rfl

/-- Every step of `run_task` is seen of the recorder. -/
theorem exists_exec_of_taskStep (h : AtRest rec r) {l : TaskLabel} {u : TaskRunner} (hs : TaskStep rec r.task l u) :
    ∃ tr r', Exec (RecorderStep rec) r tr r' ∧ AtRest rec r' ∧ tr.filterMap RecorderLabel.task = [l] ∧
      r'.task = u := by
  have hinvoking : ∀ resume, r.task.phase = .invoking resume → r.phase = .invoking resume := by
    intro resume hp
    change r.phase.task = .invoking resume at hp
    cases hr : r.phase with
    | invoking resume' =>
      rw [hr] at hp
      rw [TaskPhase.invoking.inj hp]
    | recording spans => exact absurd hr (h.phase spans 0).1
    | noting ms => exact absurd hr (h.phase [] ms).2
    | _ => exact absurd (hr ▸ hp) (by simp [Phase.task])
  have hwaiting : r.task.phase = .waiting → r.phase = .waiting := by
    intro hp
    change r.phase.task = .waiting at hp
    cases hr : r.phase with
    | waiting => rfl
    | _ => exact absurd (hr ▸ hp) (by simp [Phase.task])
  have hreturning : r.task.phase = .returning → ∃ ms, r.phase = .closing ms := by
    intro hp
    change r.phase.task = .returning at hp
    cases hr : r.phase with
    | closing ms => exact ⟨ms, rfl⟩
    | _ => exact absurd (hr ▸ hp) (by simp [Phase.task])
  cases hs with
  | graph hp hgraph hl => exact h.seen .refl rfl (.graph (hinvoking _ hp) hgraph hl) rfl (by simp)
  | submitted hp hreturns hn hq he hqueue =>
    obtain ⟨tr, store, hr, htr⟩ := exec_record (hinvoking _ hp) hreturns
    exact h.seen hr htr (.submitted rfl hn hq he hqueue) rfl (by simp)
  | prompted hp hreturns hn hq =>
    obtain ⟨tr, store, hr, htr⟩ := exec_record (hinvoking _ hp) hreturns
    exact h.seen hr htr (.prompted rfl hn hq) rfl (by simp)
  | queue hq ha hw hqueue he =>
    exact h.seen .refl rfl (.queue hq ha (fun hrunner => hwaiting (hw hrunner)) hqueue he) rfl h.phase
  | resumed hp hq hqueue => exact h.seen .refl rfl (.resumed (hwaiting hp) hq hqueue) rfl (by simp)
  | answered decision hp hq => exact h.seen .refl rfl (.answered decision (hwaiting hp) hq) rfl (by simp)
  | @noted createdAt resolvedAt hp hreturns hn =>
    obtain ⟨tr, store, hr, htr⟩ := exec_record (hinvoking _ hp) hreturns
    refine h.seen (hr.snoc (.measured rfl hn)) ?_ (@RecorderStep.noted rec _ _ createdAt resolvedAt rfl) rfl (by simp)
    rw [List.filterMap_append, htr]
    rfl
  | returned hp =>
    obtain ⟨ms, hclosing⟩ := hreturning hp
    obtain ⟨row, hrow, -⟩ := h.rowed
    obtain ⟨store, hfinish⟩ := exists_finishTask hrow (statusOf r.graph.config.state.status)
      (some (taskTypeOf r.graph.config.state.plan)) ms (escalations r.graph.events).length 0
    exact h.seen .refl rfl (.finished hclosing hfinish) rfl (by simp)
  | raised hp =>
    refine h.seen .refl rfl (.raised fun hreturned => hp ?_) rfl (by simp)
    exact congrArg Phase.task hreturned

/-- From the same start `run_task` has the runs of `run_traced_task`, seen without their recording, and no others. -/
theorem traced_iff_run (rec : Recording) (t₀ : TaskRunner) (tr : List TaskLabel) (t : TaskRunner) :
    TaskBegins rec t₀ ∧ Exec (TaskStep rec) t₀ tr t ↔
      ∃ r₀ tr' r, Begins rec r₀ ∧ r₀.task = t₀ ∧ Exec (RecorderStep rec) r₀ tr' r ∧
        tr'.filterMap RecorderLabel.task = tr ∧ r.task = t := by
  constructor
  · rintro ⟨h₀, hr⟩
    obtain ⟨task, userId, requireHumanApproval, hconfig⟩ := h₀.config
    let r₀ : Recorder := {
      graph := t₀.graph
      store := TraceStore.startTask {} rec.taskId userId task 0
      queue := t₀.queue }
    have hbegins : Begins rec r₀ := {
      config := h₀.config
      events := h₀.events
      batch := h₀.batch
      store := ⟨{}, userId, task, 0, rfl, rfl⟩
      queue := h₀.queue
      recorded := rfl
      phase := rfl }
    have hview : r₀.task = t₀ := congrArg (TaskRunner.mk t₀.graph t₀.queue) h₀.phase.symm
    rw [← hview] at hr
    obtain ⟨tr', r, hr', -, htr, ht⟩ := Exec.lifted (AtRest rec) ⟨rowed_begin hbegins, fun _ _ => by simp [r₀]⟩
      (fun _ _ _ hsettled hs => exists_exec_of_taskStep hsettled hs) hr
    exact ⟨r₀, tr', r, hbegins, hview, hr', htr, ht⟩
  · rintro ⟨r₀, tr', r, hbegins, rfl, hr, rfl, rfl⟩
    refine ⟨hbegins.task, hr.erased (fun r => Halted rec.app.settings r.graph r.phase) ?_
      (fun _ _ _ h hs => hs.halted h) fun _ _ _ h hs => hs.task h⟩
    rw [hbegins.phase]
    trivial

end AgentOrchestrator
