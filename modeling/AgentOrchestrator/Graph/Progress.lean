import AgentOrchestrator.Graph.Escalation

/-!
# What a human decision leads to

A run is never stuck on an error: under the invariant every node can execute (`exists_step_of_at`).  After an APPROVE,
MODIFY or TAKE_OVER the run does not come back to `human_escalation` before it has done something, and the output of
a TAKE_OVER is used, unless the decision sends the run to the scheduler with a deadlocked plan
(`progress_iff_avoidsDeadlock`).  Then the scheduler escalates again at once.
-/

namespace AgentOrchestrator

open Dependency Fallible

/-! ### Every node can execute -/

theorem exists_takeOver {plan : ExecutionPlan} (decision : HumanDecision) {ids : List String}
    (h : ∀ sid ∈ ids, sid ∈ planIds plan) : ∃ results, ids.mapM (takeOverResult plan decision) = .ok results := by
  induction ids with
  | nil => exact ⟨[], rfl⟩
  | cons sid ids ih =>
    obtain ⟨rest, hrest⟩ := ih fun x hx => h x (List.mem_cons_of_mem _ hx)
    obtain ⟨st, hst⟩ := Dict.mem_keys_iff.1 (mem_keys_byId.2 (h sid List.mem_cons_self))
    have hone : ∃ x, takeOverResult plan decision sid = .ok x := by
      unfold takeOverResult
      rw [hst]
      exact ⟨_, rfl⟩
    obtain ⟨x, hx⟩ := hone
    refine ⟨x :: rest, ?_⟩
    rw [List.mapM_cons, bind_eq_ok_iff]
    exact ⟨x, hx, by rw [hrest]; rfl⟩

private theorem exists_update {cfg : Settings} {plan : ExecutionPlan} {s : OrchestratorState}
    {source : EscalationSource} {decision : HumanDecision} {escalation : EscalationRequest} (h : Sound plan s)
    (hp : Pending cfg s source decision escalation) :
    ∃ u, applyHumanDecision s = .ok u ∧ u.humanDecision = none ∧ u.escalationSource = none := by
  unfold applyHumanDecision
  rw [hp.decision_eq, hp.source_eq, hp.escalation_eq]
  simp only [require, bind, Except.bind]
  rcases ha : decision.action with _ | _ | _ | _
  all_goals dsimp only
  · split
    · exact ⟨_, rfl, rfl, rfl⟩
    · exact ⟨_, rfl, rfl, rfl⟩
  · exact ⟨_, rfl, rfl, rfl⟩
  · split
    · exact ⟨_, rfl, rfl, rfl⟩
    · rename_i hplan
      split
      · exact ⟨_, rfl, rfl, rfl⟩
      · rename_i hretry
        obtain ⟨r, hr⟩ := hp.classified.of_review hplan hretry
        rw [hr, h.plan_eq]
        exact ⟨_, rfl, rfl, rfl⟩
  · split
    · rename_i hretry
      -- the stuck ids have results, so they are ids of the plan
      have hids : ∀ sid ∈ escalation.context.stuckSubtaskIds.getD [], sid ∈ planIds plan := by
        intro sid hs
        rw [(hp.classified.of_retry hretry).2.2] at hs
        obtain ⟨_, result, _, _, hr, _⟩ := mem_stuckIds.1 hs
        exact h.mem_planIds sid result hr
      obtain ⟨results, hresults⟩ := exists_takeOver decision hids
      rw [h.plan_eq]
      dsimp only
      rw [hresults]
      exact ⟨_, rfl, rfl, rfl⟩
    · exact ⟨_, rfl, rfl, rfl⟩

theorem exists_route {s : OrchestratorState} {decision : HumanDecision} {source : EscalationSource}
    (hd : s.humanDecision = some decision) (hs : s.escalationSource = some source) :
    ∃ n, routeAfterDecision s = .ok n := by
  unfold routeAfterDecision
  rw [hd, hs]
  simp only [require, bind, Except.bind]
  rcases decision.action with _ | _ | _ | _
  all_goals dsimp only
  · split
    · exact ⟨_, rfl⟩
    · exact ⟨_, rfl⟩
  · exact ⟨_, rfl⟩
  · split
    · exact ⟨_, rfl⟩
    · split
      · exact ⟨_, rfl⟩
      · exact ⟨_, rfl⟩
  · exact ⟨_, rfl⟩

/-- Where a decision waits, it can be applied. -/
theorem exists_applied {cfg : Settings} {plan : ExecutionPlan} {s : OrchestratorState} {source : EscalationSource}
    {decision : HumanDecision} {escalation : EscalationRequest} (h : Sound plan s)
    (hp : Pending cfg s source decision escalation) :
    ∃ u n, applyHumanDecision s = .ok u ∧ routeAfterDecision (s.apply u) = .ok n := by
  obtain ⟨u, hu, hud, hus⟩ := exists_update h hp
  have hd' : (s.apply u).humanDecision = some decision := by simp [hud, hp.decision_eq]
  have hs' : (s.apply u).escalationSource = some source := by simp [hus, hp.source_eq]
  obtain ⟨n, hn⟩ := exists_route hd' hs'
  exact ⟨u, n, hu, hn⟩

/-- No node raises: short of the end, every configuration of a run has a next step. -/
theorem exists_step_of_at {cfg : Settings} {c : Config} (h : At cfg c.state c.next) (hne : c.next ≠ .finish) :
    ∃ e c', Step cfg c e c' := by
  obtain ⟨s, next⟩ := c
  have ofFires : ∀ {e c'}, Fires cfg ⟨s, next⟩ e c' → ∃ e c', Step cfg ⟨s, next⟩ e c' :=
    fun hf => ⟨_, _, hf.step⟩
  cases h with
  | intake _ => exact ofFires (.intake "" none)
  | planTask _ =>
    have hroute : ∃ n, routeAfterPlan cfg (s.apply (planTask (samplePlan []))) = .ok n := ⟨_, rfl⟩
    obtain ⟨n, hn⟩ := hroute
    exact ofFires (.planTask (samplePlan []) hn)
  | routeBatch hs =>
    obtain ⟨n, hn, -⟩ := @decideNextBatch_cases cfg _ s hs.plan_eq hs.mem_planIds
    exact ofFires (.routeBatch hn)
  | send hs _ _ hb =>
    obtain ⟨branches, hbr⟩ := exists_runBatch s (sampleResult true) fun sid hsid => (mem_scan_ready.1 hsid).1
    rw [← hb] at hbr
    exact ofFires (.specialists (sampleResult true) hbr)
  | review _ _ =>
    have hroute : ∃ n, routeAfterReview cfg (s.apply (review (sampleReview true []) s)) = .ok n := ⟨_, rfl⟩
    obtain ⟨n, hn⟩ := hroute
    exact ofFires (.review (sampleReview true []) hn)
  | applyReviewFeedback _ hr =>
    have hu : ∃ u, applyReviewFeedback s = .ok u := by
      unfold applyReviewFeedback
      rw [hr]
      exact ⟨_, rfl⟩
    obtain ⟨u, hu⟩ := hu
    exact ofFires (.applyReviewFeedback hu)
  | notifyHuman _ hr _ =>
    have hu : ∃ u, notifyHuman cfg s = .ok u := by
      unfold notifyHuman
      rw [hr]
      exact ⟨_, rfl⟩
    obtain ⟨u, hu⟩ := hu
    exact ofFires (.notifyHuman hu)
  | synthesize _ => exact ofFires (.synthesize "")
  | deliver _ => exact ofFires (.deliver none rfl)
  | rejectTask _ => exact ofFires .rejectTask
  | humanEscalation hs _ =>
    obtain ⟨escalation, source, he⟩ := @exists_escalate cfg s _ hs.plan_eq
    exact ofFires (.humanEscalation { action := .approve } he)
  | applyHumanDecision hs _ hp =>
    obtain ⟨u, n, hu, hn⟩ := exists_applied hs hp
    exact ofFires (.applyHumanDecision hp.decision_eq hp.source_eq hu hn)
  | finish => exact absurd rfl hne

/-! ### Progress -/

/-- The execution of a node that does something for the task. -/
def Productive (e : Event) : Prop :=
  match e with
  | .planTask _ _ _ => True
  | .specialists runs => runs ≠ []
  | .review _ _ => True
  | .synthesize _ _ => True
  | .deliver _ => True
  | _ => False

/-- Whatever happens from here on, something productive is executed before the next interrupt. -/
def MakesProgress (cfg : Settings) (c : Config) : Prop :=
  Precedes (Step cfg) Productive (fun c => c.next = .node .humanEscalation) c

/-- Something is unfinished, and every unfinished subtask waits for an unfinished one. -/
def Deadlocked (plan : ExecutionPlan) (done : String → Prop) : Prop :=
  PlanBlocked plan done ∧ ∃ sid ∈ planIds plan, ¬ done sid

/-- The subtasks that are done once a decision has been applied: a TAKE_OVER finishes the stuck ones. -/
def doneAfter (cfg : Settings) (s : OrchestratorState) (decision : HumanDecision) (sid : String) : Prop :=
  isDone s.completed sid = true ∨ decision.action = .takeOver ∧ Stuck cfg s.completed s.retryCounts sid

/-- The output of a TAKE_OVER becomes the final output, or a subtask that was not done is done with it. -/
def OutputUsed (cfg : Settings) (c : Config) (output : String) : Prop :=
  ∀ e c', Step cfg c e c' →
    (c'.next = .node .deliver ∧ c'.state.finalOutput = some output) ∨
    ∃ sid result, ¬ isDone c.state.completed sid = true ∧ c'.state.completed.get? sid = some result ∧
      result.success = true ∧ result.output = some output

private theorem progress_of_productive {cfg : Settings} {c : Config} (hn : c.next ≠ .node .humanEscalation)
    (hp : ∀ e c', Step cfg c e c' → Productive e) : MakesProgress cfg c :=
  Precedes.step hn fun e c' hs => Or.inl (hp e c' hs)

theorem progress_send {cfg : Settings} {s : OrchestratorState} {batch : List SendPayload}
    (h : At cfg s (.send batch)) : MakesProgress cfg ⟨s, .send batch⟩ := by
  refine progress_of_productive (by simp) fun e c' hs => ?_
  cases hs.fires with
  | specialists result hb =>
    obtain ⟨plan, -, hready, hran, -⟩ := h.dispatched hb
    have hlen := hran.length_eq
    intro hnil
    rw [hnil, List.length_nil] at hlen
    exact hready (List.length_eq_zero_iff.1 hlen)

/-- The scheduler makes progress unless something is stuck or the plan is deadlocked. -/
theorem progress_routeBatch_iff {cfg : Settings} {plan : ExecutionPlan} {s : OrchestratorState} (h : Sound plan s) :
    MakesProgress cfg ⟨s, .node .routeBatch⟩ ↔
      stuckOf cfg s = [] ∧ ¬ Deadlocked plan fun sid => isDone s.completed sid = true := by
  rw [stuckOf_eq h.plan_eq]
  constructor
  · intro hp
    obtain ⟨n, hn, hd⟩ := @decideNextBatch_cases cfg plan s h.plan_eq h.mem_planIds
    have hnow := (hp.next (Fires.routeBatch hn).step id).not_now
    cases hd with
    | stuck _ => exact absurd rfl hnow
    | batch hst hr =>
      refine ⟨hst, fun hdead => ?_⟩
      obtain ⟨sid, hsid⟩ := List.exists_mem_of_ne_nil _ hr
      obtain ⟨hk, hnd, -, hdeps⟩ := mem_scan_ready.1 hsid
      obtain ⟨d, hdep, hd⟩ := hdead.1 sid hk hnd
      exact hd (hdeps d hdep)
    | blocked _ _ _ => exact absurd rfl hnow
    | review hd =>
      refine ⟨scan_stuck_of_allDone hd, fun hdead => ?_⟩
      obtain ⟨sid, hk, hnd⟩ := hdead.2
      exact hnd (hd sid hk)
  · rintro ⟨hst, hdead⟩
    refine Precedes.step (by simp) fun e c' hs => Or.inr ?_
    have hat : At cfg c'.state c'.next := At.step (At.routeBatch h) hs.fires
    cases hs.fires with
    | routeBatch hn =>
      cases decides_of_eq h.plan_eq h.mem_planIds hn with
      | stuck hne => exact absurd hst hne
      | batch _ _ => exact progress_send hat
      | blocked _ hb hd =>
        refine absurd ⟨hb, ?_⟩ hdead
        simpa [AllDone] using hd
      | review _ =>
        refine progress_of_productive (by simp) fun e c' hs => ?_
        cases hs.fires with
        | review _ _ => trivial

/-- Applying the decision is one unproductive step with one outcome. -/
private theorem progress_applied_iff {cfg : Settings} {s : OrchestratorState} {c' : Config} {e : Event}
    (hf : Fires cfg ⟨s, .node .applyHumanDecision⟩ e c') :
    MakesProgress cfg ⟨s, .node .applyHumanDecision⟩ ↔ MakesProgress cfg c' := by
  cases hf with
  | applyHumanDecision hd hs hu hn =>
    constructor
    · intro h
      exact h.next (Fires.applyHumanDecision hd hs hu hn).step id
    · intro h
      refine Precedes.step (by simp) fun e' c'' hs' => Or.inr ?_
      cases hs'.fires with
      | applyHumanDecision _ _ hu' hn' =>
        obtain rfl := Except.ok.inj (hu.symm.trans hu')
        obtain rfl := Except.ok.inj (hn.symm.trans hn')
        exact h

/-- After the decision the scheduler sees nothing stuck and the subtasks of `doneAfter` as done. -/
private theorem progress_rescheduled_iff {cfg : Settings} {plan : ExecutionPlan} {s s' : OrchestratorState}
    {decision : HumanDecision} (h : Sound plan s') (hst : stuckOf cfg s' = [])
    (hdone : ∀ sid, isDone s'.completed sid = true ↔ doneAfter cfg s decision sid) :
    MakesProgress cfg ⟨s', .node .routeBatch⟩ ↔ ¬ Deadlocked plan (doneAfter cfg s decision) := by
  have heq : (fun sid => isDone s'.completed sid = true) = doneAfter cfg s decision :=
    funext fun sid => propext (hdone sid)
  rw [progress_routeBatch_iff h, heq]
  exact ⟨fun hp => hp.2, fun hp => ⟨hst, hp⟩⟩

/-! ### The cases of a decision -/

/-- Nothing is stuck any more when the stuck entries have been deleted or replaced by successes. -/
theorem stuckOf_resolved {cfg : Settings} {plan : ExecutionPlan} {s s' : OrchestratorState} (h : Sound plan s)
    (hp : s'.plan = some plan) (hc : ∀ sid, sid ∉ stuckIds cfg s → s'.completed.get? sid = s.completed.get? sid)
    (hrc : ∀ sid, sid ∉ stuckIds cfg s → s'.retryCounts.get? sid = s.retryCounts.get? sid)
    (hin : ∀ sid ∈ stuckIds cfg s, ∀ result, s'.completed.get? sid = some result → result.success = true) :
    stuckOf cfg s' = [] := by
  rw [stuckOf_eq hp, List.eq_nil_iff_forall_not_mem]
  intro sid hs
  obtain ⟨-, result, hr, hfail, hmax⟩ := mem_scan_stuck.1 hs
  by_cases hst : sid ∈ stuckIds cfg s
  · exact absurd (hfail.symm.trans (hin sid hst result hr)) (by simp)
  · rw [hc sid hst] at hr
    rw [hrc sid hst] at hmax
    exact hst (h.mem_stuckIds_iff_stuck.2 ⟨result, hr, hfail, hmax⟩)

/-- In particular when they have been deleted. -/
theorem stuckOf_deleted {cfg : Settings} {plan : ExecutionPlan} {s s' : OrchestratorState} (h : Sound plan s)
    (hp : s'.plan = some plan)
    (hc : ∀ sid, s'.completed.get? sid = if sid ∈ stuckIds cfg s then none else s.completed.get? sid)
    (hrc : ∀ sid, sid ∉ stuckIds cfg s → s'.retryCounts.get? sid = s.retryCounts.get? sid) : stuckOf cfg s' = [] := by
  refine stuckOf_resolved h hp ?_ hrc ?_
  · intro sid hst
    rw [hc, if_neg hst]
  · intro sid hst result hr
    rw [hc, if_pos hst] at hr
    exact absurd hr (by simp)

/-- Deleting the stuck entries changes nothing about what is done. -/
theorem isDone_deleted {cfg : Settings} {plan : ExecutionPlan} {s s' : OrchestratorState} {sid : String}
    (h : Sound plan s)
    (hc : ∀ sid, s'.completed.get? sid = if sid ∈ stuckIds cfg s then none else s.completed.get? sid) :
    isDone s'.completed sid = true ↔ isDone s.completed sid = true := by
  by_cases hst : sid ∈ stuckIds cfg s
  · refine iff_of_false ?_ (not_isDone_of_stuck (h.mem_stuckIds_iff_stuck.1 hst))
    unfold isDone
    rw [hc, if_pos hst]
    simp
  · have heq : s'.completed.get? sid = s.completed.get? sid := by rw [hc, if_neg hst]
    rw [isDone_congr heq]

private theorem doneAfter_iff {cfg : Settings} {s : OrchestratorState} {decision : HumanDecision} {sid : String}
    (ha : decision.action ≠ .takeOver) : doneAfter cfg s decision sid ↔ isDone s.completed sid = true := by
  simp [doneAfter, ha]

/-- An APPROVE or a MODIFY of stuck subtasks: their entries are deleted and their retry counts reset. -/
private theorem progress_retried_iff {cfg : Settings} {plan : ExecutionPlan} {s s' : OrchestratorState}
    {decision : HumanDecision} (h : Sound plan s) (h' : Sound plan s') (ha : decision.action ≠ .takeOver)
    (hc : ∀ sid, s'.completed.get? sid = if sid ∈ stuckIds cfg s then none else s.completed.get? sid)
    (hrc : ∀ sid, sid ∉ stuckIds cfg s → s'.retryCounts.get? sid = s.retryCounts.get? sid) :
    MakesProgress cfg ⟨s', .node .routeBatch⟩ ↔ ¬ Deadlocked plan (doneAfter cfg s decision) := by
  refine progress_rescheduled_iff h' (stuckOf_deleted h h'.plan_eq hc hrc) fun sid => ?_
  rw [doneAfter_iff ha]
  exact isDone_deleted h hc

/-- A TAKE_OVER of stuck subtasks: they are done. -/
private theorem progress_supplied_iff {cfg : Settings} {plan : ExecutionPlan} {s s' : OrchestratorState}
    {decision : HumanDecision} (h : Sound plan s) (h' : Sound plan s') (ha : decision.action = .takeOver)
    (hin : ∀ sid ∈ stuckIds cfg s, ∃ result, s'.completed.get? sid = some result ∧ result.success = true)
    (hout : ∀ sid, sid ∉ stuckIds cfg s → s'.completed.get? sid = s.completed.get? sid)
    (hrc : ∀ sid, sid ∉ stuckIds cfg s → s'.retryCounts.get? sid = s.retryCounts.get? sid) :
    MakesProgress cfg ⟨s', .node .routeBatch⟩ ↔ ¬ Deadlocked plan (doneAfter cfg s decision) := by
  refine progress_rescheduled_iff h' (stuckOf_resolved h h'.plan_eq hout hrc ?_) fun sid => ?_
  · intro sid hst result hr
    obtain ⟨result', hr', hs⟩ := hin sid hst
    obtain rfl := Option.some.inj (hr.symm.trans hr')
    exact hs
  · unfold doneAfter
    by_cases hst : sid ∈ stuckIds cfg s
    · exact iff_of_true (isDone_iff.2 (hin sid hst)) (Or.inr ⟨ha, h.mem_stuckIds_iff_stuck.1 hst⟩)
    · rw [isDone_congr (hout sid hst)]
      refine ⟨Or.inl, ?_⟩
      rintro (hd | ⟨-, hs⟩)
      · exact hd
      · exact absurd (h.mem_stuckIds_iff_stuck.2 hs) hst

/-- `apply_review_feedback` deletes nothing that a MODIFY after a review has left. -/
theorem get?_redone {r : ReviewResult} {plan : ExecutionPlan} {completed completed' : Dict String SubtaskResult}
    (hc : ∀ sid, completed'.get? sid = if sid ∈ redoIds r plan then none else completed.get? sid) (sid : String) :
    (mergeOptionalDict completed' (Dict.ofKeys r.subtasksToRedo fun _ => none)).get? sid =
      if sid ∈ redoIds r plan then none else completed.get? sid := by
  rw [get?_merge_ofKeys, hc]
  by_cases hin : sid ∈ r.subtasksToRedo
  · rw [if_pos hin, if_pos (subset_redoIds r plan hin)]
  · rw [if_neg hin]

/-- After such a MODIFY the ids to redo are what is not done. -/
theorem not_isDone_redone_iff {plan : ExecutionPlan} {s : OrchestratorState} {r : ReviewResult}
    {completed : Dict String SubtaskResult} (h : Sound plan s) (hr : s.review = some r)
    (hc : ∀ sid, completed.get? sid = if sid ∈ redoIds r plan then none else s.completed.get? sid) {sid : String}
    (hk : sid ∈ planIds plan) : ¬ isDone completed sid = true ↔ sid ∈ redoIds r plan := by
  constructor
  · intro hnd
    by_contra hin
    have heq : completed.get? sid = s.completed.get? sid := by rw [hc, if_neg hin]
    rw [isDone_congr heq] at hnd
    rcases (h.reviewed r hr sid hk).2 with hd | hredo
    · exact hnd hd
    · exact hin hredo
  · intro hin
    unfold isDone
    rw [hc, if_pos hin]
    simp

/-- And nothing is stuck: an entry that is left is a success. -/
theorem stuckOf_redone {cfg : Settings} {plan : ExecutionPlan} {s s' : OrchestratorState} {r : ReviewResult}
    (h : Sound plan s) (hr : s.review = some r) (hp : s'.plan = some plan)
    (hc : ∀ sid, s'.completed.get? sid = if sid ∈ redoIds r plan then none else s.completed.get? sid) :
    stuckOf cfg s' = [] := by
  rw [stuckOf_eq hp, List.eq_nil_iff_forall_not_mem]
  intro sid hst
  obtain ⟨hk, hstuck⟩ := mem_scan_stuck.1 hst
  have hin := (not_isDone_redone_iff h hr hc hk).1 (not_isDone_of_stuck hstuck)
  obtain ⟨result, hres, -⟩ := hstuck
  rw [hc, if_pos hin] at hres
  exact absurd hres (by simp)

/-- A MODIFY after a review: what was not done is dispatched again, because the plan can be worked off. -/
private theorem progress_redo {cfg : Settings} {plan : ExecutionPlan} {s s' : OrchestratorState} {r : ReviewResult}
    (h : Sound plan s) (h' : Sound plan s') (hr : s.review = some r) (hr' : s'.review = some r)
    (hc : ∀ sid, s'.completed.get? sid = if sid ∈ redoIds r plan then none else s.completed.get? sid) :
    MakesProgress cfg ⟨s', .node .applyReviewFeedback⟩ := by
  refine Precedes.step (by simp) fun e c' hs => Or.inr ?_
  have hat : At cfg c'.state c'.next := At.step (At.applyReviewFeedback h' hr') hs.fires
  cases hs.fires with
  | @applyReviewFeedback _ u hu =>
    obtain ⟨r', hreq, rfl⟩ := update_of_applyReviewFeedback hu
    obtain rfl := Option.some.inj (hr'.symm.trans hreq)
    cases hat with
    | @routeBatch plan' hsound =>
      obtain rfl := h'.plan_unique hsound.plan_eq
      refine (progress_routeBatch_iff hsound).2 ⟨stuckOf_redone h hr hsound.plan_eq (get?_redone hc), fun hdead => ?_⟩
      obtain ⟨sid, hk, hnd⟩ := hdead.2
      exact hsound.not_blocked_of_review hr' (fun hall => hnd (hall sid hk)) hdead.1

/-- The decision does not send the run to the scheduler with a deadlocked plan. -/
def AvoidsDeadlock (cfg : Settings) (s : OrchestratorState) (decision : HumanDecision) : Prop :=
  s.review ≠ none ∨ (s.completed = ∅ ∧ decision.action ≠ .approve) ∨
    ∀ plan, s.plan = some plan → ¬ Deadlocked plan (doneAfter cfg s decision)

/-- With work done and nothing reviewed, only the third alternative is open. -/
private theorem avoidsDeadlock_iff {cfg : Settings} {plan : ExecutionPlan} {s : OrchestratorState}
    {decision : HumanDecision} (h : Sound plan s) (hr : s.review = none)
    (hc : s.completed ≠ ∅ ∨ decision.action = .approve) :
    AvoidsDeadlock cfg s decision ↔ ¬ Deadlocked plan (doneAfter cfg s decision) := by
  unfold AvoidsDeadlock
  constructor
  · rintro (hne | ⟨he, ha⟩ | hd)
    · exact absurd hr hne
    · rcases hc with hc | hc
      · exact absurd he hc
      · exact absurd hc ha
    · exact hd plan h.plan_eq
  · intro hd
    refine Or.inr (Or.inr fun plan' hp => ?_)
    obtain rfl := h.plan_unique hp
    exact hd

/-- A decision before any work, other than an APPROVE, and every decision after a review. -/
private theorem avoidsDeadlock_of_not_retry {cfg : Settings} {plan : ExecutionPlan} {s : OrchestratorState}
    {level : EscalationLevel} {source : EscalationSource} {decision : HumanDecision} {stuck : List String}
    (h : Sound plan s) (ho : Origin cfg plan s) (hc : Classified cfg s level source stuck)
    (hs : source ≠ .specialistRetry) (ha : decision.action ≠ .approve ∨ source ∉ planSources) :
    AvoidsDeadlock cfg s decision := by
  by_cases hplan : source ∈ planSources
  · rcases ha with ha | ha
    · exact Or.inr (Or.inl ⟨(ho.pristine h hc hplan).completed, ha⟩)
    · exact absurd hplan ha
  · obtain ⟨r, hr⟩ := hc.of_review hplan hs
    exact Or.inl (by simp [hr])

/-- Progress after each of the decisions. -/
private theorem progress_decided_iff {cfg : Settings} {plan : ExecutionPlan} {s : OrchestratorState}
    {level : EscalationLevel} {source : EscalationSource} {decision : HumanDecision} {stuck : List String}
    {u : Update} {n : Next} (h : Sound plan s) (ho : Origin cfg plan s) (hc : Classified cfg s level source stuck)
    (hd : Decided s source decision stuck u n) (hne : decision.action ≠ .reject) :
    MakesProgress cfg ⟨s.apply u, n⟩ ↔ AvoidsDeadlock cfg s decision := by
  have hat := At.ofDecided h ho hc hd
  have hplan : ∀ {plan'}, Sound plan' (s.apply u) → (s.apply u).plan = s.plan → plan' = plan := by
    intro plan' h' heq
    exact h'.plan_unique (heq.trans h.plan_eq)
  cases hd with
  | reject ha => exact absurd ha hne
  | takeOver ha hs =>
    refine iff_of_true ?_ (avoidsDeadlock_of_not_retry h ho hc hs (Or.inl (by simp [ha])))
    refine progress_of_productive (by simp) fun e c' hs' => ?_
    cases hs'.fires with
    | deliver _ _ => trivial
  | supply ha hs hin hout =>
    obtain ⟨hnone, hwork, rfl⟩ := hc.of_retry hs
    rw [avoidsDeadlock_iff h hnone (Or.inl hwork)]
    cases hat with
    | routeBatch h' =>
      obtain rfl := hplan h' rfl
      refine progress_supplied_iff h h' ha ?_ ?_ fun _ _ => rfl
      · intro sid hst
        obtain ⟨result, hr, hsucc, -⟩ := hin sid hst
        exact ⟨result, by simp [hr], hsucc⟩
      · intro sid hst
        simp [hout sid hst]
  | replan ha hs =>
    have hretry : source ≠ .specialistRetry := by
      rintro rfl
      exact absurd hs (by decide)
    refine iff_of_true ?_ (avoidsDeadlock_of_not_retry h ho hc hretry (Or.inl (by simp [ha])))
    refine progress_of_productive (by simp) fun e c' hs' => ?_
    cases hs'.fires with
    | planTask _ _ => trivial
  | guide ha hs | retry ha hs =>
    obtain ⟨hnone, hwork, rfl⟩ := hc.of_retry hs
    rw [avoidsDeadlock_iff h hnone (Or.inl hwork)]
    cases hat with
    | routeBatch h' =>
      obtain rfl := hplan h' rfl
      exact progress_retried_iff h h' (by simp [ha]) (fun sid => get?_merge_ofKeys _ _ _ sid)
        fun sid hst => by simp [hst]
  | redo ha hs hs' hr hp =>
    refine iff_of_true ?_ (avoidsDeadlock_of_not_retry h ho hc hs' (Or.inl (by simp [ha])))
    obtain rfl := h.plan_unique hp
    cases hat with
    | applyReviewFeedback h' _ =>
      obtain rfl := hplan h' rfl
      exact progress_redo h h' hr hr fun sid => get?_merge_ofKeys _ _ _ sid
  | resume ha hs =>
    have hpr := ho.pristine h hc hs
    rw [avoidsDeadlock_iff h hpr.review (Or.inr ha)]
    cases hat with
    | routeBatch h' =>
      obtain rfl := hplan h' rfl
      refine progress_rescheduled_iff h' ?_ fun sid => ?_
      · have hc : (s.apply {}).completed = ∅ := hpr.completed
        rw [stuckOf_eq h'.plan_eq, hc]
        exact scan_stuck_of_empty
      · rw [doneAfter_iff (by simp [ha])]
        exact Iff.rfl
  | accept ha hs hs' =>
    refine iff_of_true ?_ (avoidsDeadlock_of_not_retry h ho hc hs' (Or.inr hs))
    refine progress_of_productive (by simp) fun e c' hstep => ?_
    cases hstep.fires with
    | synthesize _ => trivial

/-- A TAKE_OVER of a specialist's subtask that avoids the deadlock is of a stuck subtask. -/
private theorem exists_stuck_of_avoids {cfg : Settings} {plan : ExecutionPlan} {s : OrchestratorState}
    {decision : HumanDecision} (h : Sound plan s) (ho : Origin cfg plan s) (hnone : s.review = none)
    (hwork : s.completed ≠ ∅) (hav : AvoidsDeadlock cfg s decision) : ∃ sid, sid ∈ stuckIds cfg s := by
  have hdead := (avoidsDeadlock_iff h hnone (Or.inl hwork)).1 hav
  cases ho with
  | plan hpr _ => exact absurd hpr.completed hwork
  | stuck hne =>
    obtain ⟨sid, hsid⟩ := List.exists_mem_of_ne_nil _ hne
    exact ⟨sid, h.mem_stuckIds_iff.2 hsid⟩
  | blocked hnil hb hnd =>
    by_contra hno
    -- with nothing stuck the decision leaves the deadlock as it is
    refine hdead ?_
    have heq : doneAfter cfg s decision = fun sid => isDone s.completed sid = true := by
      funext sid
      refine propext ⟨?_, Or.inl⟩
      rintro (hd | ⟨-, hst⟩)
      · exact hd
      · exact absurd ⟨sid, h.mem_stuckIds_iff_stuck.2 hst⟩ hno
    rw [heq]
    refine ⟨hb, ?_⟩
    simpa [AllDone] using hnd
  | review hr _ _ => exact absurd (hnone.symm.trans hr) (by simp)

/-- The output of a TAKE_OVER is used, unless the plan is deadlocked. -/
private theorem output_used {cfg : Settings} {plan : ExecutionPlan} {s : OrchestratorState}
    {source : EscalationSource} {decision : HumanDecision} {escalation : EscalationRequest} {output : String}
    (h : Sound plan s) (ho : Origin cfg plan s) (hp : Pending cfg s source decision escalation)
    (ha : decision.action = .takeOver) (hout : decision.output = some output) (hav : AvoidsDeadlock cfg s decision) :
    OutputUsed cfg ⟨s, .node .applyHumanDecision⟩ output := by
  intro e c' hs
  have hat : At cfg s (.node .applyHumanDecision) := .applyHumanDecision h ho hp
  cases hs.fires with
  | applyHumanDecision hd hsrc hu hn =>
    obtain ⟨plan', escalation', h', ho', hp', hcase⟩ := hat.decided hd hsrc hu hn
    obtain rfl := h.plan_unique h'.plan_eq
    obtain rfl := Option.some.inj (hp.decision_eq.symm.trans hd)
    obtain rfl := Option.some.inj (hp.source_eq.symm.trans hsrc)
    rcases hcase.of_takeOver ha with ⟨-, rfl, rfl⟩ | ⟨hretry, -, hin⟩
    · left
      simp [hout]
    · right
      obtain ⟨hnone, hwork, hids⟩ := hp'.classified.of_retry hretry
      obtain ⟨sid, hsid⟩ := exists_stuck_of_avoids h ho hnone hwork hav
      obtain ⟨result, hres, hsucc, hval⟩ := hin sid (by rw [hids]; exact hsid)
      refine ⟨sid, result, not_isDone_of_stuck (h.mem_stuckIds_iff_stuck.1 hsid), by simp [hres], hsucc, ?_⟩
      rw [hval, hout]
      rfl

/-- Human decisions make progress, exactly when they avoid the deadlock. -/
theorem progress_iff_avoidsDeadlock {cfg : Settings} {s : OrchestratorState} {tr : List Event} {c c' : Config}
    {source : EscalationSource} {escalation : EscalationRequest} {decision : HumanDecision} (h0 : Fresh s)
    (hr : Exec (Step cfg) (start s) tr c) (hs : Step cfg c (.humanEscalation source escalation decision) c')
    (hne : decision.action ≠ .reject) :
    (MakesProgress cfg c' ∧
      (decision.action = .takeOver → ∀ output, decision.output = some output → OutputUsed cfg c' output)) ↔
      AvoidsDeadlock cfg c.state decision := by
  have hat := (at_of_exec h0 hr).step hs.fires
  cases hs.fires with
  | humanEscalation _ he =>
    cases hat with
    | applyHumanDecision h ho hp =>
      obtain rfl := Option.some.inj hp.decision_eq
      obtain ⟨u, n, hu, hn⟩ := exists_applied h hp
      have hf := @Fires.applyHumanDecision cfg _ _ _ u n hp.decision_eq hp.source_eq hu hn
      have hdec := decided_of_apply hp.decision_eq hp.source_eq hp.escalation_eq hu hn
      have hiff := progress_decided_iff h ho hp.classified hdec hne
      constructor
      · intro hprog
        exact hiff.1 ((progress_applied_iff hf).1 hprog.1)
      · intro hav
        exact ⟨(progress_applied_iff hf).2 (hiff.2 hav), fun ha output hout => output_used h ho hp ha hout hav⟩

/-- A MODIFY of a sensitive plan makes progress. -/
theorem modified_plan_progresses : ∃ escalation c',
    Step Settings.default ⟨sensitivePlanned, .node .humanEscalation⟩
      (.humanEscalation .planSensitive escalation { action := .modify, feedback := some "Ask first." }) c' ∧
    MakesProgress Settings.default c' := by
  obtain ⟨escalation, he⟩ := escalate_sensitivePlanned
  have hs := (Fires.humanEscalation { action := .modify, feedback := some "Ask first." } he).step
  have hav : AvoidsDeadlock Settings.default sensitivePlanned { action := .modify, feedback := some "Ask first." } :=
    Or.inr (Or.inl ⟨rfl, by decide⟩)
  exact ⟨escalation, _, hs, ((progress_iff_avoidsDeadlock fresh_sampleStart
    ((Exec.single step_intake_sample).snoc step_sensitivePlan) hs (by decide)).2 hav).1⟩

/-- The human's own report, for a plan that is deadlocked after its first subtask. -/
def ownReport : HumanDecision where
  action := .takeOver
  output := some "My report"

private def ownReportDropped (tr : List Event) (c : Config) : Bool :=
  decide (c.next = .node .humanEscalation) && decide (c.state.finalOutput = none) &&
    decide (c.state.completed.items = [("a", sampleResult true "a")]) &&
    match tr with
    | [.humanEscalation source _ decision, .applyHumanDecision source' decision' _, .routeBatch] =>
      decide (source = .specialistRetry ∧ decision = ownReport ∧ source' = .specialistRetry ∧ decision' = ownReport)
    | _ => false

/-- A TAKE_OVER of a deadlocked plan: the run is back at `human_escalation` at once, and the output is nowhere. -/
theorem takeOver_of_deadlock_dropped : ∃ tr c escalation update c',
    Exec (Step Settings.default) (start sampleStart) tr c ∧
    Exec (Step Settings.default) c [.humanEscalation .specialistRetry escalation ownReport,
      .applyHumanDecision .specialistRetry ownReport update, .routeBatch] c' ∧
    c'.next = .node .humanEscalation ∧ c'.state.finalOutput = none ∧
    c'.state.completed.items = [("a", sampleResult true "a")] := by
  have hscript : scriptEnds (step Settings.default) (start sampleStart)
      [.intake "t" none, .plan (samplePlan [sampleSubtask "a" [], sampleSubtask "b" ["z"]]), .none,
        .results (sampleResult true), .none]
      (fun _ c => scriptEnds (step Settings.default) c [.decision ownReport, .none, .none] ownReportDropped) = true := by
    decide +kernel
  obtain ⟨tr, c, hr, hp⟩ := exec_of_scriptEnds hscript
  obtain ⟨tr', c', hr', hp'⟩ := exec_of_scriptEnds hp
  unfold ownReportDropped at hp'
  simp only [Bool.and_eq_true, decide_eq_true_eq] at hp'
  obtain ⟨⟨⟨hn, hf⟩, hitems⟩, htr⟩ := hp'
  split at htr
  · rename_i source escalation decision source' decision' update
    obtain ⟨rfl, rfl, rfl, rfl⟩ := of_decide_eq_true htr
    exact ⟨tr, c, escalation, update, c', hr, hr', hn, hf, hitems⟩
  · exact absurd htr (by simp)

end AgentOrchestrator
