import AgentOrchestrator.Graph.Approval
import AgentOrchestrator.Graph.Verdict

/-!
# Where the stored results come from

Every result in `completed` was supplied by a human or computed by an execution of `run_specialist`
(`Provenance`).  The execution saw a successful result of each dependency, and that result is the one still stored,
unless a redo has deleted it since: `apply_review_feedback` and a MODIFY after a review delete just the ids they list,
and nothing invalidates what was derived from them (`downstream_keeps_discarded`).
-/

namespace AgentOrchestrator

open Fallible

/-- A redo deletes the entry of `sid`. -/
def Redoes (sid : String) (e : Event) : Prop :=
  (∃ update, e = .applyReviewFeedback update ∧ update.get? sid = some none) ∨
    ∃ source decision update, e = .applyHumanDecision source decision update ∧ decision.action = .modify ∧
      source ∉ planSources ∧ source ≠ .specialistRetry ∧ update.get? sid = some none

/-- A human takes over `sid` with `result`. -/
def Supplies (sid : String) (result : SubtaskResult) (e : Event) : Prop :=
  ∃ source decision update, e = .applyHumanDecision source decision update ∧ decision.action = .takeOver ∧
    update.get? sid = some (some result)

/-- `result` was computed for `sid`, which has not been redone since, while each dependency the execution saw is still
stored or has been redone. -/
def Computed (plan : ExecutionPlan) (completed : Dict String SubtaskResult) (tr : List Event) (sid : String)
    (result : SubtaskResult) : Prop :=
  ∃ pre runs post run, tr = pre ++ .specialists runs :: post ∧ run ∈ runs ∧
    (plan.subtasks.find? fun st => st.id = sid) = some run.subtask ∧ run.result = result ∧
    (∀ e ∈ post, ¬ Redoes sid e) ∧
    ∀ d, DependsOn plan sid d → ∃ seen, run.context.get? d = some seen ∧ seen.success = true ∧
      (completed.get? d = some seen ∨ ∃ e ∈ post, Redoes d e)

/-- Where the results of a state come from. -/
def Provenance (tr : List Event) (s : OrchestratorState) : Prop :=
  ∀ plan, s.plan = some plan → ∀ sid result, s.completed.get? sid = some result →
    (∃ e ∈ tr, Supplies sid result e) ∨ Computed plan s.completed tr sid result

theorem redoes_decision {source : EscalationSource} {decision : HumanDecision}
    {update : Dict String (Option SubtaskResult)} {sid : String} :
    Redoes sid (.applyHumanDecision source decision update) ↔ decision.action = .modify ∧ source ∉ planSources ∧
      source ≠ .specialistRetry ∧ update.get? sid = some none := by
  constructor
  · rintro (⟨_, he, -⟩ | ⟨source', decision', update', he, h⟩)
    · exact absurd he (by simp)
    · obtain ⟨rfl, rfl, rfl⟩ : source = source' ∧ decision = decision' ∧ update = update' := by simpa using he
      exact h
  · exact fun h => Or.inr ⟨source, decision, update, rfl, h⟩

theorem redoes_feedback {update : Dict String (Option SubtaskResult)} {sid : String} :
    Redoes sid (.applyReviewFeedback update) ↔ update.get? sid = some none := by
  constructor
  · rintro (⟨update', he, h⟩ | ⟨_, _, _, he, -⟩)
    · obtain rfl : update = update' := by simpa using he
      exact h
    · exact absurd he (by simp)
  · exact fun h => Or.inl ⟨update, rfl, h⟩

/-- A step that keeps the entry of `sid` and accounts for the successes it deletes keeps its provenance. -/
private theorem Computed.keep {plan : ExecutionPlan} {completed completed' : Dict String SubtaskResult}
    {tr : List Event} {sid : String} {result : SubtaskResult} {e : Event}
    (h : Computed plan completed tr sid result) (hself : ¬ Redoes sid e)
    (hdeps : ∀ d seen, completed.get? d = some seen → seen.success = true →
      completed'.get? d = some seen ∨ Redoes d e) : Computed plan completed' (tr ++ [e]) sid result := by
  obtain ⟨pre, runs, post, run, rfl, hrun, hst, hres, hkept, hall⟩ := h
  refine ⟨pre, runs, post ++ [e], run, by simp, hrun, hst, hres, fun x hx => ?_, fun d hd => ?_⟩
  · rcases List.mem_append.1 hx with hx | hx
    · exact hkept x hx
    · obtain rfl := List.mem_singleton.1 hx
      exact hself
  obtain ⟨seen, hseen, hs, hor⟩ := hall d hd
  refine ⟨seen, hseen, hs, ?_⟩
  rcases hor with hstored | ⟨x, hx, hredo⟩
  · rcases hdeps d seen hstored hs with hkeep | hredo
    · exact Or.inl hkeep
    · exact Or.inr ⟨e, by simp, hredo⟩
  · exact Or.inr ⟨x, List.mem_append_left _ hx, hredo⟩

/-- Provenance along a step that writes no new result. -/
private theorem Provenance.keep {tr : List Event} {s s' : OrchestratorState} {e : Event} (h : Provenance tr s)
    (hp : s'.plan = s.plan)
    (hold : ∀ sid result, s'.completed.get? sid = some result →
      s.completed.get? sid = some result ∧ ¬ Redoes sid e)
    (hdeps : ∀ d seen, s.completed.get? d = some seen → seen.success = true →
      s'.completed.get? d = some seen ∨ Redoes d e) : Provenance (tr ++ [e]) s' := by
  intro plan hplan sid result hr
  rw [hp] at hplan
  obtain ⟨hr, hself⟩ := hold sid result hr
  rcases h plan hplan sid result hr with ⟨x, hx, hsup⟩ | hcomp
  · exact Or.inl ⟨x, List.mem_append_left _ hx, hsup⟩
  · exact Or.inr (hcomp.keep hself hdeps)

/-- Provenance along a step that leaves `completed` alone. -/
private theorem Provenance.same {tr : List Event} {s s' : OrchestratorState} {e : Event} (h : Provenance tr s)
    (hp : s'.plan = s.plan) (hc : s'.completed = s.completed) (he : ∀ sid, ¬ Redoes sid e) :
    Provenance (tr ++ [e]) s' := by
  refine h.keep hp (fun sid result hr => ⟨?_, he sid⟩) fun d seen hd _ => Or.inl ?_
  · rwa [hc] at hr
  · rwa [hc]

/-- A batch: the new results were computed from what is stored. -/
private theorem Provenance.batch {cfg : Settings} {plan : ExecutionPlan} {tr : List Event}
    {s s' : OrchestratorState} {result : String → SubtaskResult} {runs : List SpecialistRun} (h : Provenance tr s)
    (hsound : Sound plan s)
    (hran : List.Forall₂ (Ran plan s result) (scan cfg plan s.completed s.retryCounts).ready runs)
    (heff : BatchEffect s result (scan cfg plan s.completed s.retryCounts).ready s s') :
    Provenance (tr ++ [.specialists runs]) s' := by
  -- what is done is not in the batch
  have hkeep : ∀ d seen, s.completed.get? d = some seen → seen.success = true → s'.completed.get? d = some seen := by
    intro d seen hd hs
    rw [heff.completed, if_neg]
    · exact hd
    · intro hready
      exact (mem_scan_ready.1 hready).2.1 (isDone_iff.2 ⟨seen, hd, hs⟩)
  intro plan' hplan sid r hr
  rw [heff.frame] at hplan
  obtain rfl := hsound.plan_unique hplan
  rw [heff.completed] at hr
  split at hr
  · rename_i hready
    obtain rfl := Option.some.inj hr
    obtain ⟨hk, -, -, hdeps⟩ := mem_scan_ready.1 hready
    obtain ⟨run, hrun, hsid⟩ := exists_run_of_mem hran hready
    refine Or.inr ⟨tr, runs, [], run, rfl, hrun, hsid.subtask, hsid.result, by simp, fun d hd => ?_⟩
    obtain ⟨seen, hseen, hs⟩ := isDone_iff.1 (hdeps d hd)
    exact ⟨seen, by rw [hsid.context]; exact hseen, hs, Or.inl (hkeep d seen hseen hs)⟩
  · rcases h plan hplan sid r hr with ⟨x, hx, hsup⟩ | hcomp
    · exact Or.inl ⟨x, List.mem_append_left _ hx, hsup⟩
    · exact Or.inr (hcomp.keep (by simp [Redoes]) fun d seen hd hs => Or.inl (hkeep d seen hd hs))

/-- A successful entry is not that of a stuck subtask. -/
private theorem not_mem_stuckIds_of_success {cfg : Settings} {s : OrchestratorState} {d : String}
    {seen : SubtaskResult} (hd : s.completed.get? d = some seen) (hs : seen.success = true) : d ∉ stuckIds cfg s := by
  intro hst
  obtain ⟨_, result, _, _, hr, hfail⟩ := mem_stuckIds.1 hst
  obtain rfl := Option.some.inj (hd.symm.trans hr)
  exact absurd (hfail.symm.trans hs) (by simp)

/-- Deleting the entries of `ids` keeps the provenance if what is redone is among them, and all successes in them. -/
private theorem Provenance.delete {tr : List Event} {s s' : OrchestratorState} {ids : List String} {e : Event}
    (h : Provenance tr s) (hp : s'.plan = s.plan)
    (hc : ∀ sid, s'.completed.get? sid = if sid ∈ ids then none else s.completed.get? sid)
    (hself : ∀ sid, Redoes sid e → sid ∈ ids)
    (hids : ∀ d seen, s.completed.get? d = some seen → seen.success = true → d ∈ ids → Redoes d e) :
    Provenance (tr ++ [e]) s' := by
  refine h.keep hp (fun sid result hr => ?_) fun d seen hd hs => ?_
  · rw [hc] at hr
    split at hr
    · exact absurd hr (by simp)
    · rename_i hnot
      exact ⟨hr, fun hredo => hnot (hself sid hredo)⟩
  · -- a success that goes is one that is redone
    by_cases hin : d ∈ ids
    · exact Or.inr (hids d seen hd hs hin)
    · rw [hc, if_neg hin]
      exact Or.inl hd

/-- The decision of a human. -/
private theorem Provenance.decided {cfg : Settings} {tr : List Event} {s : OrchestratorState}
    {level : EscalationLevel} {source : EscalationSource} {decision : HumanDecision} {stuck : List String}
    {u : Update} {n : Next} (h : Provenance tr s) (hc : Classified cfg s level source stuck)
    (hd : Decided s source decision stuck u n) :
    Provenance (tr ++ [.applyHumanDecision source decision u.completed]) (s.apply u) := by
  cases hd with
  | reject ha => exact h.same rfl rfl fun sid hredo => absurd (ha.symm.trans (redoes_decision.1 hredo).1) (by decide)
  | takeOver ha _ => exact h.same rfl rfl fun sid hredo => absurd (ha.symm.trans (redoes_decision.1 hredo).1) (by decide)
  | replan _ hs => exact h.same rfl rfl fun sid hredo => absurd hs (redoes_decision.1 hredo).2.1
  | resume ha _ => exact h.same rfl rfl fun sid hredo => absurd (ha.symm.trans (redoes_decision.1 hredo).1) (by decide)
  | accept ha _ _ => exact h.same rfl rfl fun sid hredo => absurd (ha.symm.trans (redoes_decision.1 hredo).1) (by decide)
  | @supply ha hs completed hin hout =>
    obtain ⟨-, -, rfl⟩ := hc.of_retry hs
    have hget : ∀ sid, (mergeOptionalDict s.completed completed).get? sid =
        (completed.get? sid).getD (s.completed.get? sid) := fun sid => get?_mergeOptionalDict _ _ sid
    have hkeep : ∀ sid, sid ∉ stuckIds cfg s →
        (mergeOptionalDict s.completed completed).get? sid = s.completed.get? sid := by
      intro sid hst
      rw [hget, hout sid hst]
      rfl
    intro plan hplan sid result hr
    by_cases hst : sid ∈ stuckIds cfg s
    · -- the human's own result
      left
      obtain ⟨result', hr', -⟩ := hin sid hst
      have heq := (hget sid).symm.trans hr
      rw [hr'] at heq
      obtain rfl : result' = result := Option.some.inj heq
      exact ⟨_, by simp, source, decision, completed, rfl, ha, hr'⟩
    · rcases h plan hplan sid result ((hkeep sid hst).symm.trans hr) with ⟨x, hx, hsup⟩ | hcomp
      · exact Or.inl ⟨x, List.mem_append_left _ hx, hsup⟩
      · refine Or.inr (hcomp.keep (fun hredo => ?_) fun d seen hd hs' => Or.inl ?_)
        · exact absurd (ha.symm.trans (redoes_decision.1 hredo).1) (by decide)
        exact (hkeep d (not_mem_stuckIds_of_success hd hs')).trans hd
  | guide _ hs =>
    obtain ⟨-, -, rfl⟩ := hc.of_retry hs
    -- only failures are put back
    refine h.delete rfl (fun sid => get?_merge_ofKeys _ _ _ sid) (fun sid hredo => ?_) fun d seen hd hs' hin => ?_
    · exact absurd hs (redoes_decision.1 hredo).2.2.1
    · exact absurd hin (not_mem_stuckIds_of_success hd hs')
  | retry ha hs =>
    obtain ⟨-, -, rfl⟩ := hc.of_retry hs
    refine h.delete rfl (fun sid => get?_merge_ofKeys _ _ _ sid) (fun sid hredo => ?_) fun d seen hd hs' hin => ?_
    · exact absurd (ha.symm.trans (redoes_decision.1 hredo).1) (by decide)
    · exact absurd hin (not_mem_stuckIds_of_success hd hs')
  | redo ha hs hs' _ _ =>
    refine h.delete rfl (fun sid => get?_merge_ofKeys _ _ _ sid) (fun sid hredo => ?_) fun d seen _ _ hin => ?_
    · exact (Dict.get?_ofKeys_eq_some.1 (redoes_decision.1 hredo).2.2.2).1
    · exact redoes_decision.2 ⟨ha, hs, hs', Dict.get?_ofKeys_eq_some.2 ⟨hin, rfl⟩⟩

/-- Step lemma for the provenance. -/
theorem Provenance.step {cfg : Settings} {tr : List Event} {c c' : Config} {e : Event} (hat : At cfg c.state c.next)
    (h : Provenance tr c.state) (hs : Step cfg c e c') : Provenance (tr ++ [e]) c'.state := by
  cases hs.fires with
  | intake uuid memories => exact h.same rfl rfl (by simp [Redoes])
  | planTask plan _ =>
    cases hat with
    | planTask hp =>
      -- nothing is stored before the first batch
      have hnone := (hp.planTask plan).1.completed
      intro plan' _ sid result hr
      dsimp only at hnone hr
      rw [hnone] at hr
      exact absurd hr (by simp)
  | routeBatch _ => exact h.same rfl rfl (by simp [Redoes])
  | specialists result hb =>
    obtain ⟨plan, hsound, -, hran, heff⟩ := hat.dispatched hb
    exact h.batch hsound hran heff
  | review result _ => exact h.same rfl rfl (by simp [Redoes])
  | applyReviewFeedback hu =>
    obtain ⟨r, -, rfl⟩ := update_of_applyReviewFeedback hu
    refine h.delete rfl (fun sid => get?_merge_ofKeys _ _ _ sid) (fun sid hredo => ?_) fun d seen _ _ hin => ?_
    · exact (Dict.get?_ofKeys_eq_some.1 (redoes_feedback.1 hredo)).1
    · exact redoes_feedback.2 (Dict.get?_ofKeys_eq_some.2 ⟨hin, rfl⟩)
  | notifyHuman hu =>
    obtain ⟨escalation, rfl⟩ := update_of_notifyHuman hu
    exact h.same rfl rfl (by simp [Redoes])
  | synthesize text => exact h.same rfl rfl (by simp [Redoes])
  | deliver memory hu =>
    obtain rfl := update_of_deliver hu
    exact h.same rfl rfl (by simp [Redoes])
  | rejectTask => exact h.same rfl rfl (by simp [Redoes])
  | humanEscalation decision _ => exact h.same rfl rfl (by simp [Redoes])
  | applyHumanDecision hd hsrc hu hroute =>
    obtain ⟨plan, escalation, hsound, ho, hp, hcase⟩ := hat.decided hd hsrc hu hroute
    exact h.decided hp.classified hcase

theorem provenance_of_exec {cfg : Settings} {s : OrchestratorState} {tr : List Event} {c : Config} (h0 : Fresh s)
    (hr : Exec (Step cfg) (start s) tr c) : Provenance tr c.state := by
  have hnone : (start s).state.completed = ∅ := h0.completed
  refine (hr.invariant (fun tr c => At cfg c.state c.next ∧ Provenance tr c.state) ⟨at_start h0, ?_⟩ ?_).2
  · intro plan _ sid result hr
    rw [hnone] at hr
    exact absurd hr (by simp)
  · rintro tr c e c' - ⟨hat, hprov⟩ hs
    exact ⟨hat.step hs.fires, hprov.step hat hs⟩

/-- Dependency freshness in a run from a fresh state: a result that no human supplied was computed by an execution
after which its subtask has not been redone, from successful results that are still stored or have been redone since. -/
theorem fresh_unless_redone {cfg : Settings} {s : OrchestratorState} {tr : List Event} {c : Config}
    {plan : ExecutionPlan} {b : SubTask} {result : SubtaskResult} (h0 : Fresh s)
    (hr : Exec (Step cfg) (start s) tr c) (hp : c.state.plan = some plan) (hn : (planIds plan).Nodup)
    (hb : b ∈ plan.subtasks) (hres : c.state.completed.get? b.id = some result) :
    (∃ e ∈ tr, Supplies b.id result e) ∨
      ∃ pre runs post run, tr = pre ++ .specialists runs :: post ∧ run ∈ runs ∧ run.subtask = b ∧
        run.result = result ∧ (∀ e ∈ post, ¬ Redoes b.id e) ∧
        ∀ a ∈ b.dependsOn, ∃ seen, run.context.get? a = some seen ∧ seen.success = true ∧
          (c.state.completed.get? a = some seen ∨ ∃ e ∈ post, Redoes a e) := by
  rcases provenance_of_exec h0 hr plan hp b.id result hres with hsup | hcomp
  · exact Or.inl hsup
  · obtain ⟨pre, runs, post, run, htr, hrun, hfind, hres', hkept, hdeps⟩ := hcomp
    refine Or.inr ⟨pre, runs, post, run, htr, hrun, ?_, hres', hkept, fun a ha => ?_⟩
    · -- with unique ids the subtask found is `b`
      have hm := List.mem_of_find?_eq_some hfind
      have hid : run.subtask.id = b.id := by simpa using List.find?_some hfind
      exact List.inj_on_of_nodup_map hn hm hb hid
    · exact hdeps a ⟨b, get?_byId_of_nodup hn hb, ha⟩

/-- A plan of two subtasks, the second one on top of the first. -/
def chainPlan : ExecutionPlan := samplePlan [sampleSubtask "a" [], sampleSubtask "b" ["a"]]

private def isSchedule (e : Event) : Bool :=
  match e with
  | .applyHumanDecision _ _ _ => false
  | .applyReviewFeedback _ => false
  | _ => true

/-- Both subtasks done at once: the result of `b` was computed from the result of `a` that is stored. -/
theorem chain_fresh : ∃ tr c run, Exec (Step Settings.default) (start sampleStart) tr c ∧ c.next = .node .review ∧
    (∃ runs, .specialists runs ∈ tr ∧ run ∈ runs) ∧ run.subtask = sampleSubtask "b" ["a"] ∧
    run.context.get? "a" = c.state.completed.get? "a" := by
  have hscript : scriptEnds (step Settings.default) (start sampleStart)
      [.intake "t" none, .plan chainPlan, .none, .results (sampleResult true), .none, .results (sampleResult true), .none]
      (fun tr c => decide (c.next = .node .review) && decide (c.state.plan = some chainPlan) &&
        decide (c.state.completed.get? "b" = some (sampleResult true "b")) && tr.all isSchedule) = true := by
    decide +kernel
  obtain ⟨tr, c, hr, hp⟩ := exec_of_scriptEnds hscript
  simp only [Bool.and_eq_true, decide_eq_true_eq, List.all_eq_true] at hp
  obtain ⟨⟨⟨hnext, hplan⟩, hb⟩, hquiet⟩ := hp
  have hmem : sampleSubtask "b" ["a"] ∈ chainPlan.subtasks := by simp [chainPlan, samplePlan]
  rcases fresh_unless_redone fresh_sampleStart hr hplan (by decide +kernel) hmem hb with
    ⟨e, he, _, _, _, rfl, -⟩ | ⟨pre, runs, post, run, rfl, hrun, hst, -, -, hdeps⟩
  · exact absurd (hquiet _ he) (by simp [isSchedule])
  · obtain ⟨seen, hseen, -, hor⟩ := hdeps "a" (by simp [sampleSubtask])
    refine ⟨_, c, run, hr, hnext, ⟨runs, by simp, hrun⟩, hst, ?_⟩
    rcases hor with hstored | ⟨e, he, hredo⟩
    · rw [hseen, hstored]
    · have hq := hquiet e (by simp [he])
      rcases hredo with ⟨_, rfl, -⟩ | ⟨_, _, _, rfl, -⟩
      · exact absurd hq (by simp [isSchedule])
      · exact absurd hq (by simp [isSchedule])

private def isUndecided (e : Event) : Bool :=
  match e with
  | .applyHumanDecision _ _ _ => false
  | _ => true

/-- The runs of `b` in an event. -/
private def runsOf (b : SubTask) (e : Event) : List SpecialistRun :=
  match e with
  | .specialists runs => runs.filter fun run => run.subtask = b
  | _ => []

/-- The reviewer sends `a` back, its second output differs, and at the next review `b` still stands on the first one. -/
theorem downstream_keeps_discarded : ∃ tr c result, Exec (Step Settings.default) (start sampleStart) tr c ∧
    c.next = .node .review ∧ c.state.plan = some chainPlan ∧ (planIds chainPlan).Nodup ∧
    sampleSubtask "b" ["a"] ∈ chainPlan.subtasks ∧ c.state.completed.get? "b" = some result ∧
    (∀ e ∈ tr, ¬ Supplies "b" result e) ∧
    ∀ runs, .specialists runs ∈ tr → ∀ run ∈ runs, run.subtask = sampleSubtask "b" ["a"] →
      run.context.get? "a" ≠ c.state.completed.get? "a" := by
  have hscript : scriptEnds (step Settings.default) (start sampleStart)
      [.intake "t" none, .plan chainPlan, .none, .results (sampleResult true), .none, .results (sampleResult true), .none,
        .review (sampleReview false ["a"]), .none, .none,
        .results fun sid => { sampleResult true sid with output := some "Second draft" }, .none]
      (fun tr c => decide (c.next = .node .review) && decide (c.state.plan = some chainPlan) &&
        decide (c.state.completed.get? "b" = some (sampleResult true "b")) && tr.all isUndecided &&
        (tr.flatMap (runsOf (sampleSubtask "b" ["a"]))).all fun run =>
          decide (run.context.get? "a" ≠ c.state.completed.get? "a")) = true := by
    decide +kernel
  obtain ⟨tr, c, hr, hp⟩ := exec_of_scriptEnds hscript
  simp only [Bool.and_eq_true, decide_eq_true_eq, List.all_eq_true] at hp
  obtain ⟨⟨⟨⟨hnext, hplan⟩, hb⟩, hquiet⟩, hruns⟩ := hp
  refine ⟨tr, c, _, hr, hnext, hplan, by decide +kernel, by simp [chainPlan, samplePlan], hb, ?_, ?_⟩
  · rintro e he ⟨_, _, _, rfl, -⟩
    exact absurd (hquiet _ he) (by simp [isUndecided])
  · intro runs he run hrun hst
    exact hruns run (List.mem_flatMap.2 ⟨_, he, List.mem_filter.2 ⟨hrun, by simpa using hst⟩⟩)

end AgentOrchestrator
