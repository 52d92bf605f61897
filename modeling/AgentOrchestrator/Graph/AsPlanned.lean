import AgentOrchestrator.Graph.Freshness
import AgentOrchestrator.Graph.Redo
import AgentOrchestrator.Graph.Replanning

/-!
# What of a plan is executed

`decide_next_batch` works with a dictionary of the subtasks, in which the last one with an id counts, and
`run_specialist` looks its subtask up in the list, where the first one counts.  So what is executed for an id is the
first subtask with it, after the dependencies of the last one (`Performed`).  A plan is executed as planned, in every
run that reaches the reviewer, exactly if the subtasks that share an id agree in what is executed and the last one lists
what the others depend on, or the plan cannot be worked off at all (`executed_as_planned_iff`).
-/

namespace AgentOrchestrator

open Dependency

/-! ### What has been executed -/

def Event.runs : Event → List SpecialistRun
  | .specialists runs => runs
  | _ => []

/-- The executions of `run_specialist` in a run. -/
def executions (tr : List Event) : List SpecialistRun := tr.flatMap Event.runs

theorem mem_executions {tr : List Event} {run : SpecialistRun} :
    run ∈ executions tr ↔ ∃ runs, .specialists runs ∈ tr ∧ run ∈ runs := by
  unfold executions
  rw [List.mem_flatMap]
  constructor
  · rintro ⟨e, he, hrun⟩
    cases e with
    | specialists runs => exact ⟨runs, he, hrun⟩
    | _ => exact absurd hrun List.not_mem_nil
  · rintro ⟨runs, he, hrun⟩
    exact ⟨_, he, hrun⟩

/-- An execution for the plan in force: the first subtask with the id, after the dependencies of the last. -/
structure Performed (s : OrchestratorState) (run : SpecialistRun) : Prop where
  plan_eq : s.plan = some run.plan
  subtask : (run.plan.subtasks.find? fun st => st.id = run.subtask.id) = some run.subtask
  context : ∀ d, DependsOn run.plan run.subtask.id d → isDone run.context d = true
  counted : ∃ n, s.retryCounts.get? run.subtask.id = some n

/-- What a batch has executed. -/
theorem performed_of_batch {cfg : Settings} {plan : ExecutionPlan} {s s' : OrchestratorState}
    {result : String → SubtaskResult} {runs : List SpecialistRun} (h : Sound plan s)
    (hran : List.Forall₂ (Ran plan s result) (scan cfg plan s.completed s.retryCounts).ready runs)
    (heff : BatchEffect s result (scan cfg plan s.completed s.retryCounts).ready s s') :
    ∀ run ∈ runs, Performed s' run := by
  intro run hrun
  obtain ⟨sid, hsid, hrun'⟩ := exists_ran_of_mem hran hrun
  have hplan := hrun'.plan_eq
  have hid := hrun'.id
  refine ⟨?_, ?_, ?_, ?_⟩
  · rw [heff.frame, hplan]
    exact h.plan_eq
  · rw [hplan, hid]
    exact hrun'.subtask
  · rw [hplan, hid, hrun'.context]
    exact (mem_scan_ready.1 hsid).2.2.2
  · rw [hid, heff.retryCounts, if_pos hsid]
    exact ⟨_, rfl⟩

/-- A new plan is made before any execution, and otherwise the plan stays. -/
theorem plan_of_step {cfg : Settings} {c c' : Config} {e : Event} (hat : At cfg c.state c.next)
    (hf : Fires cfg c e c') : c.state.retryCounts = ∅ ∨ c'.state.plan = c.state.plan := by
  cases hf with
  | planTask plan _ =>
    cases hat with
    | planTask hp => exact Or.inl hp.retryCounts
  | specialists result hb =>
    obtain ⟨plan, -, -, -, heff⟩ := hat.dispatched hb
    exact Or.inr (by rw [heff.frame])
  | applyReviewFeedback hu =>
    obtain ⟨r, -, rfl⟩ := update_of_applyReviewFeedback hu
    exact Or.inr rfl
  | notifyHuman hu =>
    obtain ⟨escalation, rfl⟩ := update_of_notifyHuman hu
    exact Or.inr rfl
  | deliver memory hu =>
    obtain rfl := update_of_deliver hu
    exact Or.inr rfl
  | applyHumanDecision hd hs hu hn =>
    obtain ⟨plan, escalation, -, -, -, hdecided⟩ := hat.decided hd hs hu hn
    cases hdecided <;> exact Or.inr rfl
  | _ => exact Or.inr rfl

theorem Performed.step {cfg : Settings} {c c' : Config} {e : Event} {run : SpecialistRun} (h : Performed c.state run)
    (hat : At cfg c.state c.next) (hf : Fires cfg c e c') : Performed c'.state run := by
  obtain ⟨n, hn⟩ := h.counted
  refine ⟨?_, h.subtask, h.context, exists_retryCount_of_step hat hf hn⟩
  rcases plan_of_step hat hf with hempty | hplan
  · rw [hempty] at hn
    exact absurd hn (by simp)
  · rw [hplan]
    exact h.plan_eq

/-- Everything executed in a run was executed for the plan in force. -/
theorem performed_of_exec {cfg : Settings} {s : OrchestratorState} {tr : List Event} {c : Config} (h0 : Fresh s)
    (hr : Exec (Step cfg) (start s) tr c) : ∀ run ∈ executions tr, Performed c.state run := by
  refine (hr.invariant (fun tr c => At cfg c.state c.next ∧ ∀ run ∈ executions tr, Performed c.state run)
    ⟨at_start h0, by simp [executions]⟩ ?_).2
  rintro tr c e c' - ⟨hat, hall⟩ hs
  refine ⟨hat.step hs.fires, fun run hrun => ?_⟩
  unfold executions at hrun
  rw [List.flatMap_append, List.flatMap_singleton, List.mem_append] at hrun
  rcases hrun with hold | hnew
  · exact (hall run hold).step hat hs.fires
  · cases hs.fires with
    | specialists result hb =>
      obtain ⟨plan, hsound, -, hran, heff⟩ := hat.dispatched hb
      exact performed_of_batch hsound hran heff run hnew
    | _ => exact absurd hnew List.not_mem_nil

/-! ### Executed as planned -/

/-- An execution for the subtask `st` of the plan, with its description and its specialist. -/
structure RunsSubtask (plan : ExecutionPlan) (st : SubTask) (run : SpecialistRun) : Prop where
  plan_eq : run.plan = plan
  id : run.subtask.id = st.id
  description : run.subtask.description = st.description
  specialist : run.subtask.specialist = st.specialist

/-- The subtask has been executed, or supplied by a human, and its executions were given what it depends on. -/
structure ExecutedAsPlanned (tr : List Event) (plan : ExecutionPlan) (st : SubTask) : Prop where
  executed : (∃ run ∈ executions tr, RunsSubtask plan st run) ∨ ∃ e ∈ tr, ∃ result, Supplies st.id result e
  informed : ∀ run ∈ executions tr, RunsSubtask plan st run → ∀ d ∈ st.dependsOn, isDone run.context d = true

/-- The first subtask with the id of `st` does what `st` says, and the last one depends on what `st` depends on. -/
structure Agrees (plan : ExecutionPlan) (st : SubTask) : Prop where
  first : ∀ st' ∈ plan.subtasks.find? fun st' => st'.id = st.id,
    st'.description = st.description ∧ st'.specialist = st.specialist
  last : ∀ d ∈ st.dependsOn, DependsOn plan st.id d

/-- Without repeated ids every subtask agrees with itself. -/
theorem agrees_of_nodup {plan : ExecutionPlan} (hn : (planIds plan).Nodup) {st : SubTask} (h : st ∈ plan.subtasks) :
    Agrees plan st := by
  refine ⟨fun st' hst' => ?_, fun d hd => ⟨st, get?_byId_of_nodup hn h, hd⟩⟩
  have hid : st'.id = st.id := by simpa using List.find?_some hst'
  rw [List.inj_on_of_nodup_map hn (List.mem_of_find?_eq_some hst') h hid]
  exact ⟨rfl, rfl⟩

/-- A subtask that agrees has been executed as planned when the reviewer is reached. -/
theorem executedAsPlanned_of_agrees {cfg : Settings} {s : OrchestratorState} {tr : List Event} {c : Config}
    {plan : ExecutionPlan} {st : SubTask} (h0 : Fresh s) (hr : Exec (Step cfg) (start s) tr c) (hn : AtReview c)
    (hp : c.state.plan = some plan) (hst : st ∈ plan.subtasks) (ha : Agrees plan st) :
    ExecutedAsPlanned tr plan st := by
  have hperformed := performed_of_exec h0 hr
  constructor
  · have hat := at_of_exec h0 hr
    rw [hn] at hat
    cases hat with
    | review hsound hd =>
      obtain rfl := hsound.plan_unique hp
      obtain ⟨result, hres, -⟩ := isDone_iff.1 (hd st.id (List.mem_map.2 ⟨st, hst, rfl⟩))
      rcases provenance_of_exec h0 hr _ hp st.id result hres with ⟨e, he, hsup⟩ | hcomp
      · exact Or.inr ⟨e, he, result, hsup⟩
      · obtain ⟨pre, runs, post, run, rfl, hrun, hfind, -⟩ := hcomp
        have hmem : run ∈ executions (pre ++ .specialists runs :: post) :=
          mem_executions.2 ⟨runs, by simp, hrun⟩
        have hplan := Option.some.inj ((hperformed run hmem).plan_eq.symm.trans hp)
        obtain ⟨hdescription, hspecialist⟩ := ha.first _ hfind
        exact Or.inl ⟨run, hmem, hplan, by simpa using List.find?_some hfind, hdescription, hspecialist⟩
  · intro run hrun hexec d hd
    have hdep := ha.last d hd
    rw [← hexec.plan_eq, ← hexec.id] at hdep
    exact (hperformed run hrun).context d hdep

/-! ### Runs in which every specialist succeeds -/

/-- No human has supplied a result. -/
def Unaided (tr : List Event) : Prop := ∀ e ∈ tr, ∀ sid result, ¬ Supplies sid result e

theorem Unaided.append {tr tr' : List Event} (h : Unaided tr) (h' : Unaided tr') : Unaided (tr ++ tr') := by
  intro e he
  rcases List.mem_append.1 he with he | he
  · exact h e he
  · exact h' e he

/-- The subtasks that are not done. -/
def undone (plan : ExecutionPlan) (s : OrchestratorState) : Finset String :=
  (planIds plan).toFinset.filter fun sid => ¬ isDone s.completed sid = true

theorem mem_undone {plan : ExecutionPlan} {s : OrchestratorState} {sid : String} :
    sid ∈ undone plan s ↔ sid ∈ planIds plan ∧ ¬ isDone s.completed sid = true := by
  unfold undone
  rw [Finset.mem_filter, List.mem_toFinset]

/-- What is ready can be executed, with success. -/
theorem exists_batch {cfg : Settings} {plan : ExecutionPlan} {s : OrchestratorState} (h : Sound plan s)
    (hs : AllSucceeded s) (hready : (scan cfg plan s.completed s.retryCounts).ready ≠ []) :
    ∃ runs s', Exec (Step cfg) ⟨s, .node .routeBatch⟩ [.routeBatch, .specialists runs] ⟨s', .node .routeBatch⟩ ∧
      List.Forall₂ (Ran plan s (sampleResult true)) (scan cfg plan s.completed s.retryCounts).ready runs ∧
      BatchEffect s (sampleResult true) (scan cfg plan s.completed s.retryCounts).ready s s' := by
  obtain ⟨sid, hsid⟩ := List.exists_mem_of_ne_nil _ hready
  obtain ⟨hk, hnd, -, hdeps⟩ := mem_scan_ready.1 hsid
  obtain ⟨n, hn, hdec⟩ := @decideNextBatch_cases cfg plan s h.plan_eq h.mem_planIds
  cases hdec with
  | stuck hst => exact absurd hs.scan_stuck hst
  | blocked _ hb _ =>
    obtain ⟨d, hdep, hd⟩ := hb sid hk hnd
    exact absurd (hdeps d hdep) hd
  | review hd => exact absurd (hd sid hk) hnd
  | batch _ _ =>
    obtain ⟨branches, hbranches⟩ := @exists_runBatch plan s (sampleResult true)
      (scan cfg plan s.completed s.retryCounts).ready fun sid hsid => (mem_scan_ready.1 hsid).1
    obtain ⟨hran, heff⟩ := batchEffect_of_runBatch hbranches s
    exact ⟨_, _, (Exec.single (Fires.routeBatch hn).step).snoc (Fires.specialists _ hbranches).step, hran, heff⟩

theorem allSucceeded_batch {s s' : OrchestratorState} {ready : List String} (h : AllSucceeded s)
    (heff : BatchEffect s (sampleResult true) ready s s') : AllSucceeded s' := by
  intro sid result hr
  rw [heff.completed] at hr
  split at hr
  · obtain rfl := Option.some.inj hr
    rfl
  · exact h sid result hr

/-- A batch leaves less to do. -/
theorem undone_batch {cfg : Settings} {plan : ExecutionPlan} {s s' : OrchestratorState}
    (hready : (scan cfg plan s.completed s.retryCounts).ready ≠ [])
    (heff : BatchEffect s (sampleResult true) (scan cfg plan s.completed s.retryCounts).ready s s') :
    (undone plan s').card < (undone plan s).card := by
  have hdone : ∀ sid, isDone s'.completed sid = true ↔
      sid ∈ (scan cfg plan s.completed s.retryCounts).ready ∨ isDone s.completed sid = true := by
    intro sid
    by_cases hin : sid ∈ (scan cfg plan s.completed s.retryCounts).ready
    · have heq : s'.completed.get? sid = some (sampleResult true sid) := by rw [heff.completed, if_pos hin]
      unfold isDone
      rw [heq]
      simp [hin, sampleResult]
    · have heq : s'.completed.get? sid = s.completed.get? sid := by rw [heff.completed, if_neg hin]
      rw [isDone_congr heq]
      simp [hin]
  obtain ⟨sid, hsid⟩ := List.exists_mem_of_ne_nil _ hready
  obtain ⟨hk, hnd, -⟩ := mem_scan_ready.1 hsid
  refine Finset.card_lt_card ((Finset.ssubset_iff_of_subset fun x hx => ?_).2 ⟨sid, mem_undone.2 ⟨hk, hnd⟩, ?_⟩)
  · obtain ⟨hxk, hxd⟩ := mem_undone.1 hx
    exact mem_undone.2 ⟨hxk, fun hd => hxd ((hdone x).2 (Or.inr hd))⟩
  · intro hmem
    exact (mem_undone.1 hmem).2 ((hdone sid).2 (Or.inl hsid))

/-- A plan that can be worked off is worked off if all specialists succeed.  The induction is on what is left to do. -/
theorem exists_worked_off {cfg : Settings} {plan : ExecutionPlan}
    (hres : ∀ sid ∈ planIds plan, PlanResolvable plan sid) {s : OrchestratorState} (h : Sound plan s)
    (hs : AllSucceeded s) : ∃ tr s', Exec (Step cfg) ⟨s, .node .routeBatch⟩ tr ⟨s', .node .review⟩ ∧ Unaided tr ∧
      s'.plan = some plan ∧ ∀ sid ∈ (scan cfg plan s.completed s.retryCounts).ready,
        ∃ run ∈ executions tr, run.subtask.id = sid ∧ run.context = s.completed := by
  induction hn : (undone plan s).card using Nat.strong_induction_on generalizing s with
  | _ n ih =>
    by_cases hready : (scan cfg plan s.completed s.retryCounts).ready = []
    · -- nothing is ready, so all is done
      have hd : AllDone plan s.completed := by
        intro sid hk
        by_contra hnd
        exact (hres sid hk).not_blocked hnd (planBlocked_of_scan hs.scan_stuck hready)
      refine ⟨[.routeBatch], s, Exec.single (fires_review h hd).step, by simp [Unaided, Supplies], h.plan_eq, ?_⟩
      simp [hready]
    · obtain ⟨runs, s', hrun, hran, heff⟩ := @exists_batch cfg plan s h hs hready
      have hless := undone_batch hready heff
      rw [hn] at hless
      obtain ⟨tr, s'', hrun', hquiet, hplan, -⟩ := ih _ hless (h.batch heff) (allSucceeded_batch hs heff) rfl
      refine ⟨[.routeBatch, .specialists runs] ++ tr, s'', hrun.trans hrun', ?_, hplan, fun sid hsid => ?_⟩
      · refine Unaided.append ?_ hquiet
        simp [Unaided, Supplies]
      · obtain ⟨run, hmem, hrun''⟩ := exists_run_of_mem hran hsid
        exact ⟨run, mem_executions.2 ⟨runs, by simp, hmem⟩, hrun''.id, hrun''.context⟩

/-- An APPROVE before any work starts the work. -/
theorem routed_of_approve {cfg : Settings} {s : OrchestratorState} {c' : Config} {e : Event} {decision : HumanDecision}
    (hat : At cfg s (.node .applyHumanDecision)) (hp : Pristine s) (hd : s.humanDecision = some decision)
    (ha : decision.action = .approve) (hf : Fires cfg ⟨s, .node .applyHumanDecision⟩ e c') :
    c'.next = .node .routeBatch ∧ c'.state.completed = ∅ ∧ c'.state.plan = s.plan ∧ Unaided [e] := by
  cases hf with
  | applyHumanDecision hd' hsrc hu hn =>
    obtain rfl := Option.some.inj (hd.symm.trans hd')
    obtain ⟨plan, escalation, -, -, hpend, hdecided⟩ := hat.decided hd hsrc hu hn
    have hplan := (hpend.classified.of_pristine hp).2
    rcases hdecided.of_approve ha with ⟨-, rfl, rfl⟩ | ⟨rfl, -, -⟩ | ⟨hnot, -, -, -⟩
    · refine ⟨rfl, hp.completed, rfl, ?_⟩
      rintro e he sid result ⟨_, _, _, heq, htake, -⟩
      obtain rfl := List.mem_singleton.1 he
      obtain ⟨-, rfl, -⟩ := Event.applyHumanDecision.inj heq
      exact absurd (ha.symm.trans htake) (by simp)
    · exact absurd hplan (by decide)
    · exact absurd hplan hnot

/-- Every plan can be made, and approved if that is asked for. -/
theorem exists_planned {cfg : Settings} {s : OrchestratorState} (h0 : Fresh s) (plan : ExecutionPlan) :
    ∃ tr s', Exec (Step cfg) (start s) tr ⟨s', .node .routeBatch⟩ ∧ Unaided tr ∧ s'.plan = some plan ∧
      s'.completed = ∅ := by
  have hintake : Exec (Step cfg) (start s) [.intake] ⟨s.apply (intake "t" none s), .node .planTask⟩ :=
    Exec.single (Fires.intake "t" none).step
  have hpristine : Pristine (s.apply (intake "t" none s)) := ⟨h0.completed, h0.retryCounts, h0.review⟩
  generalize s.apply (intake "t" none s) = s₁ at hintake hpristine
  obtain ⟨hp, hsound⟩ := hpristine.planTask plan
  have hroute : routeAfterPlan cfg (s₁.apply (planTask plan)) =
      .ok (.node (if needsApproval cfg (s₁.apply (planTask plan)) plan then .humanEscalation else .routeBatch)) := rfl
  have hrun := hintake.snoc (Fires.planTask plan hroute).step
  have hat := at_of_exec h0 hrun
  generalize s₁.apply (planTask plan) = s₂ at hp hsound hrun hat
  by_cases hneeds : needsApproval cfg s₂ plan = true
  · rw [if_pos hneeds] at hrun hat
    obtain ⟨escalation, source, he⟩ := @exists_escalate cfg s₂ plan hsound.plan_eq
    have hfire := Fires.humanEscalation { action := .approve } he
    have hat' := hat.step hfire
    obtain ⟨e, c, hstep⟩ := exists_step_of_at hat' (by simp)
    obtain ⟨hnext, hempty, hplan, hquiet⟩ :=
      routed_of_approve hat' ⟨hp.completed, hp.retryCounts, hp.review⟩ rfl rfl hstep.fires
    have hrun' := (hrun.snoc hfire.step).snoc hstep
    obtain ⟨s₃, next⟩ := c
    obtain rfl : next = .node .routeBatch := hnext
    refine ⟨_, s₃, hrun', Unaided.append ?_ hquiet, hplan.trans hsound.plan_eq, hempty⟩
    simp [Unaided, Supplies]
  · rw [if_neg hneeds] at hrun
    refine ⟨_, s₂, hrun, ?_, hsound.plan_eq, hp.completed⟩
    simp [Unaided, Supplies]

/-- A plan that can be worked off comes before the reviewer. -/
theorem exists_reviewed {cfg : Settings} {s : OrchestratorState} (h0 : Fresh s) {plan : ExecutionPlan}
    (hres : ∀ sid ∈ planIds plan, PlanResolvable plan sid) :
    ∃ tr s', Exec (Step cfg) (start s) tr ⟨s', .node .review⟩ ∧ Unaided tr ∧ s'.plan = some plan := by
  obtain ⟨tr, s₁, hrun, hquiet, hplan, hempty⟩ := @exists_planned cfg s h0 plan
  have hat := at_of_exec h0 hrun
  cases hat with
  | routeBatch hsound =>
    obtain rfl := hsound.plan_unique hplan
    have hsucc : AllSucceeded s₁ := by
      intro sid result hr
      rw [hempty] at hr
      exact absurd hr (by simp)
    obtain ⟨tr', s₂, hrun', hquiet', hplan', -⟩ := @exists_worked_off cfg _ hres s₁ hsound hsucc
    exact ⟨tr ++ tr', s₂, hrun.trans hrun', hquiet.append hquiet', hplan'⟩

/-- A human may have subtasks of a finished plan done again. -/
theorem exists_redone {cfg : Settings} {plan : ExecutionPlan} {s : OrchestratorState} (h : Sound plan s)
    (hd : AllDone plan s.completed) {ids : List String} (hne : ids ≠ []) :
    ∃ tr s', Exec (Step cfg) ⟨s, .node .review⟩ tr ⟨s', .node .routeBatch⟩ ∧ Sound plan s' ∧ AllSucceeded s' ∧
      ∀ sid, isDone s'.completed sid = true ↔ sid ∉ ids ∧ isDone s.completed sid = true := by
  let r : ReviewResult := { sampleReview false ids with requiresHumanReview := true }
  have hredo : redoIds r plan = ids := if_neg hne
  have hfire : Fires cfg ⟨s, .node .review⟩ (.review s.completed r) ⟨s.apply (review r s), .node .humanEscalation⟩ :=
    .review r rfl
  have hsound := h.review hd r
  have hat := At.step (At.review h hd) hfire
  obtain ⟨tr, s₁, hrun, hmod, -⟩ := exists_modify hat hsound rfl
  have hstep : ∃ e c', Step cfg ⟨s₁, .node .applyReviewFeedback⟩ e c' :=
    exists_step_of_at (At.applyReviewFeedback hmod.sound hmod.review) (by simp)
  obtain ⟨e, ⟨s₂, next⟩, hstep⟩ := hstep
  obtain ⟨hnext, hredone, -⟩ := redone_of_fires hmod.sound hmod.review hstep.fires
  obtain rfl : next = .node .routeBatch := hnext
  have hsucc : AllSucceeded s₁ := (hsound.allSucceeded hd).delete hmod.completed
  refine ⟨_, s₂, ((Exec.single hfire.step).trans hrun).snoc hstep, hredone.sound, hsucc.delete hredone.completed,
    fun sid => ?_⟩
  rw [hredone.isDone_iff]
  by_cases hin : sid ∈ ids
  · simp [r, sampleReview, hin]
  · have heq : s₁.completed.get? sid = s.completed.get? sid := by
      rw [hmod.completed, hredo, if_neg hin]
      rfl
    rw [isDone_congr heq]
    rfl

/-! ### Which plans are executed as planned -/

/-- In a run without take-overs the first subtask with the id is the one that was executed. -/
theorem first_agrees {cfg : Settings} {s : OrchestratorState} {tr : List Event} {c : Config} {plan : ExecutionPlan}
    {st st' : SubTask} (h0 : Fresh s) (hr : Exec (Step cfg) (start s) tr c) (hquiet : Unaided tr)
    (he : ExecutedAsPlanned tr plan st) (hst' : st' ∈ plan.subtasks.find? fun st' => st'.id = st.id) :
    st'.description = st.description ∧ st'.specialist = st.specialist := by
  rcases he.executed with ⟨run, hrun, hexec⟩ | ⟨e, hmem, result, hsup⟩
  · have hfind := (performed_of_exec h0 hr run hrun).subtask
    rw [hexec.plan_eq, hexec.id] at hfind
    obtain rfl : run.subtask = st' := Option.some.inj (hfind.symm.trans hst')
    exact ⟨hexec.description, hexec.specialist⟩
  · exact absurd hsup (hquiet e hmem st.id result)

/-- If the last subtask with the id does not wait for `d`, there is a run in which an execution goes without `d`. -/
theorem exists_uninformed {cfg : Settings} {s : OrchestratorState} (h0 : Fresh s) {plan : ExecutionPlan}
    (hres : ∀ sid ∈ planIds plan, PlanResolvable plan sid) {sid d : String} (hk : sid ∈ planIds plan)
    (hd : ¬ DependsOn plan sid d) : ∃ tr s', Exec (Step cfg) (start s) tr ⟨s', .node .review⟩ ∧
      s'.plan = some plan ∧ ∃ run ∈ executions tr, run.subtask.id = sid ∧ ¬ isDone run.context d = true := by
  obtain ⟨tr, s₁, hrun, -, hplan⟩ := @exists_reviewed cfg s h0 plan hres
  have hat := at_of_exec h0 hrun
  cases hat with
  | review hsound hdone =>
    obtain rfl := (hsound.plan_unique hplan).symm
    obtain ⟨tr', s₂, hrun', hsound', hsucc, hiff⟩ := @exists_redone cfg plan s₁ hsound hdone [sid, d] (by simp)
    have hready : sid ∈ (scan cfg plan s₂.completed s₂.retryCounts).ready := by
      refine mem_scan_ready.2 ⟨hk, fun hdone' => ?_, fun hst => ?_, fun d' hdep => ?_⟩
      · exact ((hiff sid).1 hdone').1 (by simp)
      · obtain ⟨result, hr, hfail, -⟩ := hst
        exact absurd (hfail.symm.trans (hsucc sid result hr)) (by simp)
      · refine (hiff d').2 ⟨?_, hdone d' ((hres sid hk).ofDep hdep).isKnown⟩
        rw [List.mem_pair]
        rintro (rfl | rfl)
        · exact (hres d' hk).irrefl hdep
        · exact hd hdep
    obtain ⟨tr'', s₃, hrun'', -, hplan', hbatch⟩ := @exists_worked_off cfg plan hres s₂ hsound' hsucc
    obtain ⟨run, hmem, hid, hcontext⟩ := hbatch sid hready
    refine ⟨_, s₃, (hrun.trans hrun').trans hrun'', hplan', run, ?_, hid, fun hdone' => ?_⟩
    · unfold executions at hmem ⊢
      rw [List.flatMap_append]
      exact List.mem_append_right _ hmem
    · rw [hcontext] at hdone'
      exact ((hiff d).1 hdone').1 (by simp)

/-- A plan is executed as planned in all runs that reach the reviewer exactly if it cannot be worked off or every
subtask agrees with the first and the last one that share its id. -/
theorem executed_as_planned_iff {cfg : Settings} {s : OrchestratorState} (h0 : Fresh s) (plan : ExecutionPlan) :
    (∀ tr c, Exec (Step cfg) (start s) tr c → AtReview c → c.state.plan = some plan →
      ∀ st ∈ plan.subtasks, ExecutedAsPlanned tr plan st) ↔
    ((∀ sid ∈ planIds plan, PlanResolvable plan sid) → ∀ st ∈ plan.subtasks, Agrees plan st) := by
  constructor
  · intro hall hres st hst
    have hk : st.id ∈ planIds plan := List.mem_map.2 ⟨st, hst, rfl⟩
    have hfirst : ∀ st' ∈ plan.subtasks.find? fun st' => st'.id = st.id,
        st'.description = st.description ∧ st'.specialist = st.specialist := by
      obtain ⟨tr, s', hrun, hquiet, hplan⟩ := @exists_reviewed cfg s h0 plan hres
      intro st' hst'
      exact first_agrees h0 hrun hquiet (hall tr _ hrun rfl hplan st hst) hst'
    refine ⟨hfirst, fun d hd => ?_⟩
    by_contra hnot
    obtain ⟨tr, s', hrun, hplan, run, hmem, hid, hlacks⟩ := @exists_uninformed cfg s h0 plan hres st.id d hk hnot
    have hperformed := performed_of_exec h0 hrun run hmem
    have heq := Option.some.inj (hperformed.plan_eq.symm.trans hplan)
    have hfind := hperformed.subtask
    rw [heq, hid] at hfind
    obtain ⟨hdescription, hspecialist⟩ := hfirst _ hfind
    exact hlacks ((hall tr _ hrun rfl hplan st hst).informed run hmem ⟨heq, hid, hdescription, hspecialist⟩ d hd)
  · intro hagrees tr c hr hn hp st hst
    have hat := at_of_exec h0 hr
    rw [hn] at hat
    cases hat with
    | review hsound hd =>
      obtain rfl := hsound.plan_unique hp
      refine executedAsPlanned_of_agrees h0 hr hn hp hst (hagrees (fun sid hk => ?_) st hst)
      obtain ⟨result, hres, -⟩ := isDone_iff.1 (hd sid hk)
      exact hsound.resolvable sid result hres

/-- A plan with a dependency, worked off up to the reviewer. -/
theorem chain_executed_as_planned : ∃ tr c, Exec (Step Settings.default) (start sampleStart) tr c ∧ AtReview c ∧
    c.state.plan = some chainPlan ∧ ∀ st ∈ chainPlan.subtasks, ExecutedAsPlanned tr chainPlan st := by
  have hscript : scriptEnds (step Settings.default) (start sampleStart)
      [.intake "t" none, .plan chainPlan, .none, .results (sampleResult true), .none, .results (sampleResult true), .none]
      (fun _ c => decide (c.next = .node .review ∧ c.state.plan = some chainPlan)) = true := by
    decide +kernel
  obtain ⟨tr, c, hr, hp⟩ := exec_of_scriptEnds hscript
  obtain ⟨hn, hplan⟩ := of_decide_eq_true hp
  refine ⟨tr, c, hr, hn, hplan, ?_⟩
  exact (executed_as_planned_iff fresh_sampleStart chainPlan).2
    (fun _ _ hst => agrees_of_nodup (by decide +kernel) hst) tr c hr hn hplan

/-- Two subtasks that share an id. -/
def ambiguousPlan : ExecutionPlan :=
  samplePlan [sampleSubtask "a" [], { sampleSubtask "a" [] with description := "Write it up" }]

private def isUnaided (e : Event) : Bool :=
  match e with
  | .applyHumanDecision _ _ _ => false
  | _ => true

/-- The reviewer is reached although the second of the two has not been executed. -/
theorem second_never_executed : ∃ tr c st, Exec (Step Settings.default) (start sampleStart) tr c ∧ AtReview c ∧
    c.state.plan = some ambiguousPlan ∧ st ∈ ambiguousPlan.subtasks ∧ ¬ ExecutedAsPlanned tr ambiguousPlan st := by
  have hscript : scriptEnds (step Settings.default) (start sampleStart)
      [.intake "t" none, .plan ambiguousPlan, .none, .results (sampleResult true), .none]
      (fun tr c => decide (c.next = .node .review) && decide (c.state.plan = some ambiguousPlan) &&
        ((executions tr).all fun run => decide (run.subtask.description ≠ "Write it up")) && tr.all isUnaided) =
      true := by decide +kernel
  obtain ⟨tr, c, hr, hp⟩ := exec_of_scriptEnds hscript
  simp only [Bool.and_eq_true, decide_eq_true_eq, List.all_eq_true] at hp
  obtain ⟨⟨⟨hn, hplan⟩, hruns⟩, hquiet⟩ := hp
  refine ⟨tr, c, { sampleSubtask "a" [] with description := "Write it up" }, hr, hn, hplan, ?_, fun h => ?_⟩
  · simp [ambiguousPlan, samplePlan]
  · rcases h.executed with ⟨run, hrun, hexec⟩ | ⟨e, he, _, _, _, _, rfl, -⟩
    · exact hruns run hrun hexec.description
    · exact absurd (hquiet _ he) (by simp [isUnaided])

end AgentOrchestrator
