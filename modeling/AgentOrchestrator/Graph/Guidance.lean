import AgentOrchestrator.Graph.Approval
import AgentOrchestrator.Graph.Progress
import AgentOrchestrator.Lib.Text

/-!
# What becomes of a human's guidance

A MODIFY carries guidance `g`.  Before any work it goes into the memory the planner sees, which is stripped each time,
so that `g` and all earlier guidance survive unless `g` ends in whitespace (`Memory.step`).  Later it goes into
`subtask_feedback` of the ids the decision puts back.

* For stuck subtasks it reaches their next execution, if anything is stuck.
* After a review the run passes through `apply_review_feedback`, which overwrites the guidance of every id that the
  reviewer lists; it survives if the reviewer lists no id (`guidanceUsed_iff`).

Between two reviews or decisions the feedback channel does not change, so that every execution of an id gets the same
feedback (`feedback_of_segment`).
-/

namespace AgentOrchestrator

open Dependency Fallible

/-! ### The segment up to the next review or decision -/

/-- The run is about to review or to escalate. -/
def SegmentEnds (c : Config) : Prop := c.next = .node .review ∨ c.next = .node .humanEscalation

/-- A subtask that the decision put back is executed. -/
def Reruns (update : Dict String (Option SubtaskResult)) (e : Event) : Prop :=
  ∃ runs, e = .specialists runs ∧ ∃ run ∈ runs, update.get? run.subtask.id = some none

/-- A subtask that the decision put back is executed before the next review or escalation. -/
def Reworks (cfg : Settings) (update : Dict String (Option SubtaskResult)) (c : Config) : Prop :=
  Precedes (Step cfg) (Reruns update) SegmentEnds c

/-- Every execution of a subtask that the decision put back gets exactly `g`, up to the next review or escalation. -/
def Reaches (cfg : Settings) (update : Dict String (Option SubtaskResult)) (g : String) (c : Config) : Prop :=
  ∀ tr c', Exec (Step cfg) c tr c' → (∀ e ∈ tr, ¬ IsReview e ∧ ¬ IsDecision e) →
    ∀ runs, .specialists runs ∈ tr → ∀ run ∈ runs, update.get? run.subtask.id = some none → run.feedback = some g

/-- The guidance `g` of the decision about to be applied is used. -/
def GuidanceUsed (cfg : Settings) (c : Config) (g : String) : Prop :=
  ∀ e c', Step cfg c e c' → ∃ source decision update, e = .applyHumanDecision source decision update ∧
    Reworks cfg update c' ∧ Reaches cfg update g c'

/-- In a segment the scheduler and the specialists alternate. -/
private def InSegment (feedback : Dict String String) (c : Config) : Prop :=
  SegmentEnds c ∨ (c.next = .node .routeBatch ∨ ∃ batch, c.next = .send batch) ∧ c.state.subtaskFeedback = feedback

private theorem inSegment_step {cfg : Settings} {feedback : Dict String String} {c c' : Config} {e : Event}
    (hat : At cfg c.state c.next) (h : InSegment feedback c) (hs : Step cfg c e c') (hr : ¬ IsReview e)
    (hd : ¬ IsDecision e) : InSegment feedback c' ∧ ∀ runs, e = .specialists runs →
      ∀ run ∈ runs, run.feedback = feedback.get? run.subtask.id := by
  rcases h with hend | ⟨hn, hf⟩
  · -- the next step would be a review or a decision
    cases hs.fires with
    | review result _ => exact absurd ⟨_, _, rfl⟩ hr
    | humanEscalation decision _ => exact absurd ⟨_, _, _, rfl⟩ hd
    | _ => exact absurd hend (by simp [SegmentEnds])
  · cases hs.fires with
    | routeBatch hroute =>
      refine ⟨?_, fun runs h => absurd h (by simp)⟩
      cases hat with
      | routeBatch hsound =>
        cases decides_of_eq hsound.plan_eq hsound.mem_planIds hroute with
        | stuck _ => exact Or.inl (Or.inr rfl)
        | batch _ _ => exact Or.inr ⟨Or.inr ⟨_, rfl⟩, hf⟩
        | blocked _ _ _ => exact Or.inl (Or.inr rfl)
        | review _ => exact Or.inl (Or.inl rfl)
    | @specialists s batch result branches hb =>
      obtain ⟨plan, -, -, hran, heff⟩ := hat.dispatched hb
      refine ⟨Or.inr ⟨Or.inl rfl, ?_⟩, ?_⟩
      · show (applyAll s (branches.map Prod.snd)).subtaskFeedback = feedback
        rw [heff.frame]
        exact hf
      · intro runs h run hrun
        obtain rfl := Event.specialists.inj h
        obtain ⟨sid, -, hsid⟩ := exists_ran_of_mem hran hrun
        rw [hsid.feedback, hsid.id, ← hf]
    | _ => exact absurd hn (by simp)

/-- Run lemma for a segment: every execution gets the feedback that stood at its start. -/
theorem feedback_of_segment {cfg : Settings} {s : OrchestratorState} {c' : Config} {tr : List Event}
    (hat : At cfg s (.node .routeBatch)) (hr : Exec (Step cfg) ⟨s, .node .routeBatch⟩ tr c')
    (hno : ∀ e ∈ tr, ¬ IsReview e ∧ ¬ IsDecision e) :
    ∀ runs, .specialists runs ∈ tr → ∀ run ∈ runs, run.feedback = s.subtaskFeedback.get? run.subtask.id := by
  have hinv := (hr.restrict hno).invariant
    (fun tr c => (At cfg c.state c.next ∧ InSegment s.subtaskFeedback c) ∧ ∀ runs, .specialists runs ∈ tr →
      ∀ run ∈ runs, run.feedback = s.subtaskFeedback.get? run.subtask.id)
    ⟨⟨hat, Or.inr ⟨Or.inl rfl, rfl⟩⟩, fun runs h => absurd h List.not_mem_nil⟩ ?_
  · exact hinv.2
  · rintro tr c e c' - ⟨⟨hat, hseg⟩, hall⟩ ⟨hs, hrev, hdec⟩
    obtain ⟨hseg', hruns⟩ := inSegment_step hat hseg hs hrev hdec
    refine ⟨⟨hat.step hs.fires, hseg'⟩, fun runs hmem => ?_⟩
    rcases List.mem_append.1 hmem with hmem | hmem
    · exact hall runs hmem
    · exact hruns runs (List.mem_singleton.1 hmem).symm

/-! ### A re-run before the segment ends -/

/-- A put-back subtask that can start is in the batch dispatched next. -/
private theorem reworks_of_startable {cfg : Settings} {plan : ExecutionPlan} {s : OrchestratorState}
    {update : Dict String (Option SubtaskResult)} (h : Sound plan s) (hst : stuckOf cfg s = []) {sid : String}
    (hk : sid ∈ planIds plan) (hnd : ¬ isDone s.completed sid = true)
    (hdeps : ∀ d, DependsOn plan sid d → isDone s.completed d = true) (hu : update.get? sid = some none) :
    Reworks cfg update ⟨s, .node .routeBatch⟩ := by
  rw [stuckOf_eq h.plan_eq] at hst
  have hready : sid ∈ (scan cfg plan s.completed s.retryCounts).ready := by
    refine mem_scan_ready.2 ⟨hk, hnd, fun hstuck => ?_, hdeps⟩
    have := mem_scan_stuck.2 ⟨hk, hstuck⟩
    rw [hst] at this
    exact absurd this List.not_mem_nil
  refine Precedes.step (by simp [SegmentEnds]) fun e c' hs => Or.inr ?_
  cases hs.fires with
  | routeBatch hn =>
    cases decides_of_eq h.plan_eq h.mem_planIds hn with
    | stuck hne => exact absurd hst hne
    | batch _ _ =>
      refine Precedes.step (by simp [SegmentEnds]) fun e c' hs => Or.inl ?_
      cases hs.fires with
      | specialists result hb =>
        obtain ⟨run, hrun, hran⟩ := exists_run_of_mem (batchEffect_of_runBatch hb s).1 hready
        exact ⟨_, rfl, run, hrun, by rw [hran.id]; exact hu⟩
    | blocked _ hb _ =>
      obtain ⟨d, hdep, hd⟩ := hb sid hk hnd
      exact absurd (hdeps d hdep) hd
    | review hd => exact absurd (hd sid hk) hnd

/-- If a subtask that was put back is executed at all, the scheduler dispatches a batch. -/
private theorem batch_of_reworks {cfg : Settings} {plan : ExecutionPlan} {s : OrchestratorState}
    {update : Dict String (Option SubtaskResult)} (h : Sound plan s)
    (hr : Reworks cfg update ⟨s, .node .routeBatch⟩) :
    (scan cfg plan s.completed s.retryCounts).ready ≠ [] ∧ decideNextBatch cfg s =
      .ok (.send ((scan cfg plan s.completed s.retryCounts).ready.map (sendPayload plan s))) := by
  obtain ⟨n, hn, hd⟩ := @decideNextBatch_cases cfg plan s h.plan_eq h.mem_planIds
  have hnow := (hr.next (Fires.routeBatch hn).step (by simp [Reruns])).not_now
  cases hd with
  | stuck _ => exact absurd (Or.inr rfl) hnow
  | batch _ hne => exact ⟨hne, hn⟩
  | blocked _ _ _ => exact absurd (Or.inr rfl) hnow
  | review _ => exact absurd (Or.inl rfl) hnow

/-! ### Guidance for stuck subtasks -/

/-- The deleted ids are those of the update. -/
private theorem get?_deleted {ids : List String} {sid : String} :
    (Dict.ofKeys ids fun _ => (none : Option SubtaskResult)).get? sid = some none ↔ sid ∈ ids := by
  rw [Dict.get?_ofKeys]
  split
  · rename_i h
    exact iff_of_true rfl h
  · rename_i h
    exact iff_of_false (by simp) h

/-- Before a review the guidance is used exactly if something is stuck. -/
private theorem guided_iff {cfg : Settings} {plan : ExecutionPlan} {s s' : OrchestratorState} {g : String}
    (h : Sound plan s) (ho : Origin cfg plan s) (hnone : s.review = none) (hwork : s.completed ≠ ∅)
    (h' : Sound plan s')
    (hc : ∀ sid, s'.completed.get? sid = if sid ∈ stuckIds cfg s then none else s.completed.get? sid)
    (hrc : ∀ sid, sid ∉ stuckIds cfg s → s'.retryCounts.get? sid = s.retryCounts.get? sid)
    (hf : ∀ sid ∈ stuckIds cfg s, s'.subtaskFeedback.get? sid = some g) :
    (Reworks cfg (Dict.ofKeys (stuckIds cfg s) fun _ => none) ⟨s', .node .routeBatch⟩ ∧
      Reaches cfg (Dict.ofKeys (stuckIds cfg s) fun _ => none) g ⟨s', .node .routeBatch⟩) ↔ stuckOf cfg s ≠ [] := by
  have hdone : ∀ sid, isDone s'.completed sid = true ↔ isDone s.completed sid = true :=
    fun sid => isDone_deleted h hc
  have hst' : stuckOf cfg s' = [] := stuckOf_deleted h h'.plan_eq hc hrc
  constructor
  · rintro ⟨hr, -⟩ hnil
    -- with nothing stuck the plan is blocked, before and after
    cases ho with
    | plan hpr _ => exact hwork hpr.completed
    | stuck hne =>
      rw [← stuckOf_eq h.plan_eq] at hne
      exact hne hnil
    | blocked _ hb _ =>
      obtain ⟨hne, -⟩ := batch_of_reworks h' hr
      obtain ⟨sid, hsid⟩ := List.exists_mem_of_ne_nil _ hne
      obtain ⟨hk, hnd, -, hdeps⟩ := mem_scan_ready.1 hsid
      rw [hdone] at hnd
      obtain ⟨d, hdep, hd⟩ := hb sid hk hnd
      exact hd ((hdone d).1 (hdeps d hdep))
    | review hrev _ _ => exact absurd (hnone.symm.trans hrev) (by simp)
  · intro hne
    obtain ⟨sid, hsid⟩ := List.exists_mem_of_ne_nil _ hne
    rw [stuckOf_eq h.plan_eq] at hsid
    have hst := h.mem_stuckIds_iff.2 hsid
    obtain ⟨n, _, hn, _⟩ := mem_stuckIds.1 hst
    obtain ⟨hk, hdeps⟩ := h.dispatched hnone sid n hn
    constructor
    · refine reworks_of_startable h' hst' hk ?_ (fun d hd => (hdone d).2 (hdeps d hd)) (get?_deleted.2 hst)
      rw [hdone]
      exact not_isDone_of_stuck (mem_scan_stuck.1 hsid).2
    · intro tr c' hr hno runs hruns run hrun hu
      rw [feedback_of_segment (.routeBatch h') hr hno runs hruns run hrun]
      exact hf _ (get?_deleted.1 hu)

/-! ### Guidance after a review -/

/-- `apply_review_feedback` is one step with one outcome. -/
private theorem used_after_feedback_iff {cfg : Settings} {update : Dict String (Option SubtaskResult)} {g : String}
    {s : OrchestratorState} {u : Update} (hu : applyReviewFeedback s = .ok u) :
    (Reworks cfg update ⟨s, .node .applyReviewFeedback⟩ ∧ Reaches cfg update g ⟨s, .node .applyReviewFeedback⟩) ↔
      Reworks cfg update ⟨s.apply u, .node .routeBatch⟩ ∧ Reaches cfg update g ⟨s.apply u, .node .routeBatch⟩ := by
  have hf := @Fires.applyReviewFeedback cfg s u hu
  have huniq : ∀ e c', Step cfg ⟨s, .node .applyReviewFeedback⟩ e c' →
      e = .applyReviewFeedback u.completed ∧ c' = ⟨s.apply u, .node .routeBatch⟩ := by
    intro e c' hs
    cases hs.fires with
    | applyReviewFeedback hu' =>
      obtain rfl := Except.ok.inj (hu.symm.trans hu')
      exact ⟨rfl, rfl⟩
  constructor
  · rintro ⟨hr, hreach⟩
    refine ⟨hr.next hf.step (by simp [Reruns]), fun tr c' hrun hno runs hruns => ?_⟩
    refine hreach _ c' (.cons hf.step hrun) ?_ runs (List.mem_cons_of_mem _ hruns)
    intro e he
    rcases List.mem_cons.1 he with rfl | he
    · simp [IsReview, IsDecision]
    · exact hno e he
  · rintro ⟨hr, hreach⟩
    constructor
    · refine Precedes.step (by simp [SegmentEnds]) fun e c' hs => Or.inr ?_
      obtain ⟨-, rfl⟩ := huniq e c' hs
      exact hr
    · intro tr c' hrun hno runs hruns
      rcases hrun.cases_head with ⟨rfl, -⟩ | ⟨e, c'', tr', rfl, hs, hrun'⟩
      · exact absurd hruns List.not_mem_nil
      · obtain ⟨rfl, rfl⟩ := huniq e c'' hs
        rcases List.mem_cons.1 hruns with h | hruns
        · exact absurd h (by simp)
        · exact hreach tr' c' hrun' (fun e he => hno e (List.mem_cons_of_mem _ he)) runs hruns

/-- The first batch of a plan: there is a run that executes it. -/
private theorem feedback_of_reaches {cfg : Settings} {plan : ExecutionPlan} {s : OrchestratorState}
    {update : Dict String (Option SubtaskResult)} {g sid : String}
    (hn : decideNextBatch cfg s =
      .ok (.send ((scan cfg plan s.completed s.retryCounts).ready.map (sendPayload plan s))))
    (hready : sid ∈ (scan cfg plan s.completed s.retryCounts).ready) (hu : update.get? sid = some none)
    (hreach : Reaches cfg update g ⟨s, .node .routeBatch⟩) : s.subtaskFeedback.get? sid = some g := by
  obtain ⟨branches, hb⟩ := exists_runBatch s (sampleResult true)
    (fun x (hx : x ∈ (scan cfg plan s.completed s.retryCounts).ready) => (mem_scan_ready.1 hx).1)
  have hrun := (Exec.single (Fires.routeBatch hn).step).snoc
    (@Fires.specialists cfg s _ (sampleResult true) _ hb).step
  obtain ⟨run, hmem, hran⟩ := exists_run_of_mem (batchEffect_of_runBatch hb s).1 hready
  have hf := hreach _ _ hrun (by simp [IsReview, IsDecision]) (branches.map Prod.fst) (by simp) run hmem
    (by rw [hran.id]; exact hu)
  rw [← hran.feedback]
  exact hf

/-- The reviewer's list, or the whole plan in its place, holds an id of the plan. -/
private theorem exists_redo {plan : ExecutionPlan} {r : ReviewResult}
    (h : r.subtasksToRedo = [] ∧ planIds plan ≠ [] ∨ ∃ sid ∈ r.subtasksToRedo, sid ∈ planIds plan) :
    ∃ sid ∈ planIds plan, sid ∈ redoIds r plan := by
  rcases h with ⟨hnil, hne⟩ | ⟨sid, hmem, hk⟩
  · obtain ⟨sid, hk⟩ := List.exists_mem_of_ne_nil _ hne
    refine ⟨sid, hk, ?_⟩
    unfold redoIds
    rw [if_pos hnil]
    exact hk
  · exact ⟨sid, hk, subset_redoIds r plan hmem⟩

/-- After a review the guidance is used exactly if the reviewer listed nothing, or just what the human wrote. -/
private theorem redone_iff {cfg : Settings} {plan : ExecutionPlan} {s s' : OrchestratorState} {r : ReviewResult}
    {g : String} (h : Sound plan s) (h' : Sound plan s') (hr : s.review = some r) (hr' : s'.review = some r)
    (hc : ∀ sid, s'.completed.get? sid = if sid ∈ redoIds r plan then none else s.completed.get? sid)
    (hf : ∀ sid ∈ redoIds r plan, s'.subtaskFeedback.get? sid = some g) :
    (Reworks cfg (Dict.ofKeys (redoIds r plan) fun _ => none) ⟨s', .node .applyReviewFeedback⟩ ∧
      Reaches cfg (Dict.ofKeys (redoIds r plan) fun _ => none) g ⟨s', .node .applyReviewFeedback⟩) ↔
      (r.subtasksToRedo = [] ∧ planIds plan ≠ []) ∨
        (r.feedback = g ∧ ∃ sid ∈ r.subtasksToRedo, sid ∈ planIds plan) := by
  obtain ⟨u, hu⟩ : ∃ u, applyReviewFeedback s' = .ok u := by
    unfold applyReviewFeedback
    rw [hr']
    exact ⟨_, rfl⟩
  rw [used_after_feedback_iff hu]
  have hat : At cfg (s'.apply u) (.node .routeBatch) :=
    At.step (At.applyReviewFeedback h' hr') (Fires.applyReviewFeedback hu)
  obtain ⟨r', hreq, rfl⟩ := update_of_applyReviewFeedback hu
  obtain rfl := Option.some.inj (hr'.symm.trans hreq)
  cases hat with
  | @routeBatch plan' h'' =>
    obtain rfl := h'.plan_unique h''.plan_eq
    have hc'' := get?_redone hc
    have hf'' : ∀ sid, (mergeOptionalDict s'.subtaskFeedback
        (Dict.ofKeys r.subtasksToRedo fun _ => some r.feedback)).get? sid =
        if sid ∈ r.subtasksToRedo then some r.feedback else s'.subtaskFeedback.get? sid :=
      fun sid => get?_merge_ofKeys _ _ _ sid
    have hredo : r.subtasksToRedo ≠ [] → redoIds r plan = r.subtasksToRedo := fun hne => if_neg hne
    constructor
    · rintro ⟨hrework, hreach⟩
      obtain ⟨hne, hn⟩ := batch_of_reworks h'' hrework
      obtain ⟨sid, hready⟩ := List.exists_mem_of_ne_nil _ hne
      obtain ⟨hk, hnd, -⟩ := mem_scan_ready.1 hready
      have hin := (not_isDone_redone_iff h hr hc'' hk).1 hnd
      by_cases hnil : r.subtasksToRedo = []
      · exact Or.inl ⟨hnil, List.ne_nil_of_mem hk⟩
      · have hmem : sid ∈ r.subtasksToRedo := by
          rw [← hredo hnil]
          exact hin
        have hg := feedback_of_reaches hn hready (get?_deleted.2 hin) hreach
        have hg' := (hf'' sid).symm.trans hg
        rw [if_pos hmem] at hg'
        exact Or.inr ⟨Option.some.inj hg', sid, hmem, hk⟩
    · intro hor
      -- some id of the plan is to be redone, so it or something it waits for can start
      obtain ⟨sid, hk, hin⟩ := exists_redo (hor.imp id And.right)
      have hres := (h''.reviewed r hr' sid hk).1
      have hnd := (not_isDone_redone_iff h hr hc'' hk).2 hin
      obtain ⟨b, hb, hbd, hbdeps⟩ := @Resolvable.exists_startable _ _ (fun x => isDone (mergeOptionalDict s'.completed
        (Dict.ofKeys r.subtasksToRedo fun _ => none)) x = true) _ _ hres hnd
      constructor
      · exact reworks_of_startable h'' (stuckOf_redone h hr h''.plan_eq hc'') hb.isKnown hbd hbdeps
          (get?_deleted.2 ((not_isDone_redone_iff h hr hc'' hb.isKnown).1 hbd))
      · intro tr c' hrun hno runs hruns run hmem hu'
        rw [feedback_of_segment (.routeBatch h'') hrun hno runs hruns run hmem]
        have hin' := get?_deleted.1 hu'
        refine (hf'' _).trans ?_
        rcases hor with ⟨hnil, -⟩ | ⟨hg, sid', hmem', -⟩
        · rw [hnil, if_neg List.not_mem_nil]
          exact hf _ hin'
        · rw [hredo (List.ne_nil_of_mem hmem')] at hin'
          rw [if_pos hin', hg]

/-! ### The condition -/

/-- The ids of the plan in force. -/
def idsOf (s : OrchestratorState) : List String :=
  match s.plan with
  | some plan => planIds plan
  | none => []

/-- When the guidance `g` of a MODIFY is kept: after a review, if the reviewer listed nothing to redo (or wrote just
`g`); before any work, if `g` does not end in whitespace; in between, if something is stuck. -/
def KeepsGuidance (cfg : Settings) (s : OrchestratorState) (g : String) : Prop :=
  match s.review with
  | some r => (r.subtasksToRedo = [] ∧ idsOf s ≠ []) ∨ (r.feedback = g ∧ ∃ sid ∈ r.subtasksToRedo, sid ∈ idsOf s)
  | none => if s.completed = ∅ then ¬ Text.EndsInSpace g else stuckOf cfg s ≠ []

private theorem idsOf_eq {plan : ExecutionPlan} {s : OrchestratorState} (hp : s.plan = some plan) :
    idsOf s = planIds plan := by
  unfold idsOf
  rw [hp]

private theorem guidanceUsed_iff_applied {cfg : Settings} {s : OrchestratorState} {decision : HumanDecision}
    {source : EscalationSource} {u : Update} {n : Next} {g : String} (hd : s.humanDecision = some decision)
    (hs : s.escalationSource = some source) (hu : applyHumanDecision s = .ok u)
    (hn : routeAfterDecision (s.apply u) = .ok n) :
    GuidanceUsed cfg ⟨s, .node .applyHumanDecision⟩ g ↔
      Reworks cfg u.completed ⟨s.apply u, n⟩ ∧ Reaches cfg u.completed g ⟨s.apply u, n⟩ := by
  constructor
  · intro h
    obtain ⟨source', decision', update, he, hused⟩ := h _ _ (Fires.applyHumanDecision hd hs hu hn).step
    obtain ⟨-, -, rfl⟩ := Event.applyHumanDecision.inj he
    exact hused
  · intro hused e c' hstep
    cases hstep.fires with
    | applyHumanDecision _ _ hu' hn' =>
      obtain rfl := Except.ok.inj (hu.symm.trans hu')
      obtain rfl := Except.ok.inj (hn.symm.trans hn')
      exact ⟨_, _, _, rfl, hused⟩

/-- Guidance given after work has begun is used exactly under the condition. -/
theorem guidanceUsed_iff {cfg : Settings} {plan : ExecutionPlan} {s : OrchestratorState} {source : EscalationSource}
    {decision : HumanDecision} {escalation : EscalationRequest} {g : String} (h : Sound plan s)
    (ho : Origin cfg plan s) (hp : Pending cfg s source decision escalation) (ha : decision.action = .modify)
    (hg : decision.feedback = some g) (hs : source ∉ planSources) :
    GuidanceUsed cfg ⟨s, .node .applyHumanDecision⟩ g ↔ KeepsGuidance cfg s g := by
  obtain ⟨u, n, hu, hn⟩ := exists_applied h hp
  have hdec := decided_of_apply hp.decision_eq hp.source_eq hp.escalation_eq hu hn
  have hat := At.ofDecided h ho hp.classified hdec
  rw [guidanceUsed_iff_applied hp.decision_eq hp.source_eq hu hn]
  unfold KeepsGuidance
  rcases hdec.of_modify ha with ⟨hplan, -, -⟩ | ⟨hretry, rfl, rfl⟩ | ⟨-, -, rfl, r, plan', hr, hplan, rfl⟩
  · exact absurd hplan hs
  · obtain ⟨hnone, hwork, hids⟩ := hp.classified.of_retry hretry
    rw [hids] at hat ⊢
    rw [hnone]
    dsimp only
    rw [if_neg hwork]
    cases hat with
    | routeBatch h' =>
      obtain rfl := h'.plan_unique h.plan_eq
      refine guided_iff h ho hnone hwork h' (fun sid => get?_merge_ofKeys _ _ _ sid) ?_ ?_
      · intro sid hst
        simp [hst]
      · intro sid hst
        simp [hst, hg]
  · obtain rfl := h.plan_unique hplan
    rw [hr]
    dsimp only
    rw [idsOf_eq h.plan_eq]
    cases hat with
    | applyReviewFeedback h' _ =>
      obtain rfl := h'.plan_unique h.plan_eq
      refine redone_iff h h' hr hr (fun sid => get?_merge_ofKeys _ _ _ sid) ?_
      intro sid hin
      simp [hin, hg]

/-! ### Guidance before any work -/

/-- A MODIFY with feedback `g`. -/
def Guides (source : EscalationSource) (g : String) (e : Event) : Prop :=
  ∃ escalation decision, e = .humanEscalation source escalation decision ∧ decision.action = .modify ∧
    decision.feedback = some g

/-- The text around the guidance in the planner's memory. -/
private def guidanceLabel : String := "\n\nHuman guidance: "

theorem contains_addGuidance {memory g : String} (hg : g ≠ "") (hs : ¬ Text.EndsInSpace g) :
    Text.Contains (addGuidance memory g) g := by
  refine Text.contains_strip_of_append ⟨'H', ?_, by decide⟩ hg hs
  have hlabel : 'H' ∈ guidanceLabel.toList := by decide
  rw [String.toList_append]
  exact List.mem_append_right _ hlabel

theorem addGuidance_contains {memory g g' : String} (hm : Text.strip memory = memory) (h : Text.Contains memory g') :
    Text.Contains (addGuidance memory g) g' := by
  unfold addGuidance
  rw [String.append_assoc]
  exact (Text.contains_strip_append hm).trans h

/-- All guidance for the plan in `tr` is in the planner's memory, which has been stripped if there was any. -/
structure Heard (tr : List Event) (memory : String) : Prop where
  contains : ∀ e ∈ tr, ∀ source g, Guides source g e → source ∈ planSources → g ≠ "" → Text.Contains memory g
  stripped : (∃ e ∈ tr, ∃ source g, Guides source g e ∧ source ∈ planSources) → Text.strip memory = memory

/-- The planner's memory in the course of a run. -/
inductive Memory (tr : List Event) (s : OrchestratorState) : Next → Prop
  | before (h : tr = []) : Memory tr s (.node .intake)
  | pending {pre : List Event} {source : EscalationSource} {escalation : EscalationRequest} {decision : HumanDecision}
      (htr : tr = pre ++ [.humanEscalation source escalation decision]) (hd : s.humanDecision = some decision)
      (hs : s.escalationSource = some source)
      (hsafe : decision.action = .modify → source ∈ planSources → ∀ g, decision.feedback = some g → g ≠ "" →
        ¬ Text.EndsInSpace g)
      (h : Heard pre (s.memoryContext.getD "")) : Memory tr s (.node .applyHumanDecision)
  | heard {n : Next} (hn : n ≠ .node .intake ∧ n ≠ .node .applyHumanDecision)
      (h : Heard tr (s.memoryContext.getD "")) : Memory tr s n

private theorem Heard.keep {tr : List Event} {memory : String} {e : Event} (h : Heard tr memory)
    (he : ∀ source g, Guides source g e → source ∉ planSources) : Heard (tr ++ [e]) memory := by
  constructor
  · intro x hx source g hguides hs hg
    rcases List.mem_append.1 hx with hx | hx
    · exact h.contains x hx source g hguides hs hg
    · obtain rfl := List.mem_singleton.1 hx
      exact absurd hs (he source g hguides)
  · rintro ⟨x, hx, source, g, hguides, hs⟩
    rcases List.mem_append.1 hx with hx | hx
    · exact h.stripped ⟨x, hx, source, g, hguides, hs⟩
    · obtain rfl := List.mem_singleton.1 hx
      exact absurd hs (he source g hguides)

/-- Applying a MODIFY of the plan adds its guidance to what is in the memory. -/
private theorem Heard.add {tr : List Event} {memory g : String} {source : EscalationSource}
    {escalation : EscalationRequest} {decision : HumanDecision} (h : Heard tr memory)
    (hfeedback : g = decision.feedback.getD "")
    (hsafe : ∀ g, decision.feedback = some g → g ≠ "" → ¬ Text.EndsInSpace g) :
    Heard (tr ++ [.humanEscalation source escalation decision]) (addGuidance memory g) := by
  constructor
  · intro x hx source' g' hguides hs hg
    rcases List.mem_append.1 hx with hx | hx
    · exact addGuidance_contains (h.stripped ⟨x, hx, source', g', hguides, hs⟩)
        (h.contains x hx source' g' hguides hs hg)
    · obtain rfl := List.mem_singleton.1 hx
      obtain ⟨escalation', decision', he, -, hfb⟩ := hguides
      obtain ⟨-, -, rfl⟩ := Event.humanEscalation.inj he
      rw [hfb] at hfeedback
      obtain rfl : g = g' := hfeedback
      exact contains_addGuidance hg (hsafe g hfb hg)
  · intro _
    exact Text.strip_strip _

/-- Before any guidance the memory is what it is. -/
private theorem Heard.silent {tr : List Event} {memory : String} (h : ∀ e ∈ tr, ¬ IsDecision e) : Heard tr memory := by
  have hno : ∀ e ∈ tr, ∀ source g, ¬ Guides source g e := by
    rintro e he source g ⟨escalation, decision, rfl, -⟩
    exact h _ he ⟨source, escalation, decision, rfl⟩
  constructor
  · intro e he source g hguides
    exact absurd hguides (hno e he source g)
  · rintro ⟨e, he, source, g, hguides, -⟩
    exact absurd hguides (hno e he source g)

/-- Applying a decision: only a MODIFY of the plan writes the memory, and it adds its guidance. -/
private theorem Heard.decided {tr : List Event} {s : OrchestratorState} {source : EscalationSource}
    {escalation : EscalationRequest} {decision : HumanDecision} {stuck : List String} {u : Update} {n : Next}
    (h : Heard tr (s.memoryContext.getD "")) (hd : Decided s source decision stuck u n)
    (hsafe : decision.action = .modify → source ∈ planSources → ∀ g, decision.feedback = some g → g ≠ "" →
      ¬ Text.EndsInSpace g) :
    Heard (tr ++ [.humanEscalation source escalation decision]) ((s.apply u).memoryContext.getD "") := by
  by_cases hplan : decision.action = .modify ∧ source ∈ planSources
  · rcases hd.of_modify hplan.1 with ⟨-, -, rfl⟩ | ⟨hs, -, -⟩ | ⟨hs, -⟩
    · exact h.add rfl (hsafe hplan.1 hplan.2)
    · rw [hs] at hplan
      exact absurd hplan.2 (by decide)
    · exact absurd hplan.2 hs
  · have hmem : (s.apply u).memoryContext = s.memoryContext := by
      cases hd with
      | replan ha hin => exact absurd ⟨ha, hin⟩ hplan
      | _ => rfl
    rw [hmem]
    refine h.keep fun source' g hguides hs => hplan ?_
    obtain ⟨_, _, he, ha, -⟩ := hguides
    obtain ⟨rfl, -, rfl⟩ := Event.humanEscalation.inj he
    exact ⟨ha, hs⟩

/-- The condition, for the guidance of a step that resumes `human_escalation`. -/
def Keeps (cfg : Settings) (c : Config) (e : Event) : Prop :=
  ∀ source g, Guides source g e → g ≠ "" → KeepsGuidance cfg c.state g

/-- No step comes back to `intake`, and only a decision leads to its application. -/
theorem next_of_step {cfg : Settings} {c c' : Config} {e : Event} (hat : At cfg c.state c.next)
    (hs : Step cfg c e c') (he : ¬ IsDecision e) :
    c'.next ≠ .node .intake ∧ c'.next ≠ .node .applyHumanDecision := by
  have hedge := hat.leadsTo hs.fires
  refine ⟨hat.not_intake hs.fires, fun hn => ?_⟩
  rw [hn] at hedge
  cases e with
  | humanEscalation _ _ _ => exact absurd ⟨_, _, _, rfl⟩ he
  | _ => simp [Event.LeadsTo] at hedge

/-- A batch writes results and retry counts only. -/
theorem memoryContext_of_specialists {cfg : Settings} {c c' : Config} {runs : List SpecialistRun}
    (hat : At cfg c.state c.next) (hs : Step cfg c (.specialists runs) c') :
    c'.state.memoryContext = c.state.memoryContext := by
  cases hs.fires with
  | @specialists s batch result branches hb =>
    obtain ⟨plan, -, -, -, heff⟩ := hat.dispatched hb
    show (applyAll s (branches.map Prod.snd)).memoryContext = s.memoryContext
    rw [heff.frame]

/-- Step lemma for the planner's memory, along steps that meet the condition. -/
theorem Memory.step {cfg : Settings} {tr : List Event} {c c' : Config} {e : Event} (hat : At cfg c.state c.next)
    (h : Memory tr c.state c.next) (hs : Step cfg c e c') (hk : Keeps cfg c e) :
    Memory (tr ++ [e]) c'.state c'.next := by
  obtain ⟨s, next⟩ := c
  have hquiet : ¬ IsDecision e → ∀ source g, Guides source g e → source ∉ planSources :=
    fun hno source g ⟨escalation, decision, he, _⟩ => absurd ⟨source, escalation, decision, he⟩ hno
  -- a step that is no decision and leaves the memory alone
  have hkeep : ¬ IsDecision e → next ≠ .node .intake → next ≠ .node .applyHumanDecision →
      c'.state.memoryContext = s.memoryContext → Memory (tr ++ [e]) c'.state c'.next := by
    intro hno hn hn' hmem
    cases h with
    | before _ => exact absurd rfl hn
    | pending _ _ _ _ _ => exact absurd rfl hn'
    | heard _ hheard =>
      refine .heard (next_of_step hat hs hno) ?_
      rw [hmem]
      exact hheard.keep (hquiet hno)
  cases hs.fires with
  | intake uuid memories =>
    cases h with
    | before htr =>
      refine .heard (by simp) (.silent ?_)
      rw [htr]
      simp [IsDecision]
    | heard hn _ => exact absurd rfl hn.1
  | planTask plan hroute => exact hkeep (by simp [IsDecision]) (by simp) (by simp) rfl
  | routeBatch hroute => exact hkeep (by simp [IsDecision]) (by simp) (by simp) rfl
  | specialists result hb =>
    exact hkeep (by simp [IsDecision]) (by simp) (by simp) (memoryContext_of_specialists hat hs)
  | review result hroute => exact hkeep (by simp [IsDecision]) (by simp) (by simp) rfl
  | applyReviewFeedback hu =>
    obtain ⟨r, -, rfl⟩ := update_of_applyReviewFeedback hu
    exact hkeep (by simp [IsDecision]) (by simp) (by simp) rfl
  | notifyHuman hu =>
    obtain ⟨escalation, rfl⟩ := update_of_notifyHuman hu
    exact hkeep (by simp [IsDecision]) (by simp) (by simp) rfl
  | synthesize text => exact hkeep (by simp [IsDecision]) (by simp) (by simp) rfl
  | deliver memory hu =>
    obtain rfl := update_of_deliver hu
    exact hkeep (by simp [IsDecision]) (by simp) (by simp) rfl
  | rejectTask => exact hkeep (by simp [IsDecision]) (by simp) (by simp) rfl
  | @humanEscalation s decision escalation source he =>
    cases h with
    | heard _ hheard =>
      refine .pending rfl rfl rfl (fun ha hs g hfb hg => ?_) hheard
      cases hat with
      | humanEscalation hsound ho =>
        have hpr := ho.pristine hsound (classified_of_escalate he) hs
        have hkeeps : KeepsGuidance cfg s g := hk source g ⟨escalation, decision, rfl, ha, hfb⟩ hg
        unfold KeepsGuidance at hkeeps
        rw [hpr.review] at hkeeps
        dsimp only at hkeeps
        rwa [if_pos hpr.completed] at hkeeps
  | @applyHumanDecision s decision source u n hd hsrc hu hroute =>
    obtain ⟨plan, escalation, hsound, ho, hp, hcase⟩ := hat.decided hd hsrc hu hroute
    cases h with
    | heard hn _ => exact absurd rfl hn.2
    | @pending pre source' escalation' decision' htr hd' hs' hsafe hheard =>
      obtain rfl := Option.some.inj (hd.symm.trans hd')
      obtain rfl := Option.some.inj (hsrc.symm.trans hs')
      refine .heard (next_of_step hat hs (by simp [IsDecision])) (Heard.keep ?_ (hquiet (by simp [IsDecision])))
      rw [htr]
      exact hheard.decided hcase hsafe

/-! ### The two phases of a run -/

/-- Work has begun: something was reviewed or dispatched. -/
def Begun (s : OrchestratorState) : Prop := s.review ≠ none ∨ ∃ sid n, s.retryCounts.get? sid = some n

private theorem Begun.apply {s : OrchestratorState} {u : Update} (h : Begun s)
    (hu : ∀ sid, u.retryCounts.get? sid ≠ some none) : Begun (s.apply u) := by
  rcases h with hr | ⟨sid, n, hn⟩
  · left
    simp [hr]
  · right
    refine ⟨sid, ?_⟩
    rw [OrchestratorState.apply_retryCounts, get?_mergeOptionalDict, hn]
    rcases hk : u.retryCounts.get? sid with _ | v
    · exact ⟨n, rfl⟩
    · rcases v with _ | m
      · exact absurd hk (hu sid)
      · exact ⟨m, rfl⟩

/-- Work that has begun stays begun. -/
theorem Begun.step {cfg : Settings} {c c' : Config} {e : Event} (hat : At cfg c.state c.next) (h : Begun c.state)
    (hs : Step cfg c e c') : Begun c'.state := by
  have hnone : ∀ sid : String, (∅ : Dict String (Option Nat)).get? sid ≠ some none := by simp
  cases hs.fires with
  | intake uuid memories => exact h.apply hnone
  | planTask plan _ => exact h.apply hnone
  | routeBatch _ => exact h
  | @specialists s batch result branches hb =>
    obtain ⟨plan, -, -, -, heff⟩ := hat.dispatched hb
    rcases h with hr | ⟨sid, n, hn⟩
    · left
      show (applyAll s (branches.map Prod.snd)).review ≠ none
      rw [heff.frame]
      exact hr
    · right
      refine ⟨sid, ?_⟩
      show ∃ n, (applyAll s (branches.map Prod.snd)).retryCounts.get? sid = some n
      rw [heff.retryCounts]
      split
      · exact ⟨_, rfl⟩
      · exact ⟨n, hn⟩
  | review result _ => exact h.apply hnone
  | applyReviewFeedback hu =>
    obtain ⟨r, -, rfl⟩ := update_of_applyReviewFeedback hu
    exact h.apply hnone
  | notifyHuman hu =>
    obtain ⟨escalation, rfl⟩ := update_of_notifyHuman hu
    exact h.apply hnone
  | synthesize text => exact h.apply hnone
  | deliver memory hu =>
    obtain rfl := update_of_deliver hu
    exact h.apply hnone
  | rejectTask => exact h.apply hnone
  | humanEscalation decision _ => exact h.apply hnone
  | applyHumanDecision hd hsrc hu hroute =>
    obtain ⟨plan, escalation, hsound, ho, hp, hcase⟩ := hat.decided hd hsrc hu hroute
    refine h.apply fun sid => ?_
    cases hcase with
    | guide _ _ =>
      rw [Dict.get?_ofKeys]
      split
      · simp
      · simp
    | retry _ _ =>
      rw [Dict.get?_ofKeys]
      split
      · simp
      · simp
    | _ => exact hnone sid

/-- A decision with another source than the plan is taken only after work has begun. -/
theorem begun_of_source {cfg : Settings} {plan : ExecutionPlan} {s : OrchestratorState} {level : EscalationLevel}
    {source : EscalationSource} {stuck : List String} (h : Sound plan s) (hc : Classified cfg s level source stuck)
    (hs : source ∉ planSources) : Begun s := by
  cases hc with
  | plan _ _ hp => exact absurd hp hs
  | sensitive hr _ => exact Or.inl (by simp [hr])
  | exhausted hr _ => exact Or.inl (by simp [hr])
  | retry hne _ =>
    right
    by_contra hno
    refine hne (Dict.eq_empty_of_isEmpty (Dict.isEmpty_iff.2 fun sid => ?_))
    rw [Option.eq_none_iff_forall_ne_some]
    intro result hr
    obtain ⟨n, hn⟩ := h.counted sid result hr
    exact hno ⟨sid, n, hn⟩

/-- While nothing has begun, all decisions so far were about the plan. -/
def Phased (tr : List Event) (s : OrchestratorState) : Prop :=
  ∀ source escalation decision, .humanEscalation source escalation decision ∈ tr → source ∉ planSources → Begun s

theorem Phased.step {cfg : Settings} {tr : List Event} {c c' : Config} {e : Event} (hat : At cfg c.state c.next)
    (h : Phased tr c.state) (hs : Step cfg c e c') : Phased (tr ++ [e]) c'.state := by
  intro source escalation decision hmem hsrc
  rcases List.mem_append.1 hmem with hmem | hmem
  · exact (h source escalation decision hmem hsrc).step hat hs
  · obtain rfl := List.mem_singleton.1 hmem
    refine Begun.step hat ?_ hs
    cases hs.fires with
    | humanEscalation _ he =>
      cases hat with
      | humanEscalation hsound _ => exact begun_of_source hsound (classified_of_escalate he) hsrc

/-! ### Guidance is kept -/

/-- The invariant of the runs whose guidance is kept. -/
private theorem memory_of_exec {cfg : Settings} {s : OrchestratorState} {tr : List Event} {c : Config} (h0 : Fresh s)
    (hr : Exec (fun c e c' => Step cfg c e c' ∧ Keeps cfg c e) (start s) tr c) :
    At cfg c.state c.next ∧ Memory tr c.state c.next ∧ Phased tr c.state := by
  refine hr.invariant (fun tr c => At cfg c.state c.next ∧ Memory tr c.state c.next ∧ Phased tr c.state)
    ⟨at_start h0, .before rfl, fun _ _ _ hmem => absurd hmem List.not_mem_nil⟩ ?_
  rintro tr c e c' - ⟨hat, hmem, hph⟩ ⟨hs, hk⟩
  exact ⟨hat.step hs.fires, hmem.step hat hs hk, hph.step hat hs⟩

/-- After a MODIFY of the plan the next node is `plan_task`. -/
private theorem replans {cfg : Settings} {c c' c'' : Config} {source : EscalationSource} {g : String} {e e' : Event}
    (hat : At cfg c.state c.next) (hs : Step cfg c e c') (hg : Guides source g e) (hplan : source ∈ planSources)
    (hs' : Step cfg c' e' c'') : c''.next = .node .planTask := by
  have hat' := hat.step hs.fires
  obtain ⟨escalation, decision, rfl, ha, -⟩ := hg
  cases hs.fires with
  | humanEscalation _ he =>
    cases hs'.fires with
    | applyHumanDecision hd hsrc hu hroute =>
      obtain ⟨plan, escalation', hsound, ho, hp, hcase⟩ := hat'.decided hd hsrc hu hroute
      obtain rfl := Option.some.inj hd
      obtain rfl := Option.some.inj hsrc
      rcases hcase.of_modify ha with ⟨-, hn, -⟩ | ⟨hs, -, -⟩ | ⟨hs, -⟩
      · exact hn
      · rw [hs] at hplan
        exact absurd hplan (by decide)
      · exact absurd hplan hs

/-- After any other MODIFY its guidance is used exactly under the condition. -/
private theorem guided_step_iff {cfg : Settings} {c c' : Config} {source : EscalationSource} {g : String} {e : Event}
    (hat : At cfg c.state c.next) (hs : Step cfg c e c') (hg : Guides source g e) (hplan : source ∉ planSources) :
    GuidanceUsed cfg c' g ↔ KeepsGuidance cfg c.state g := by
  have hat' := hat.step hs.fires
  obtain ⟨escalation, decision, rfl, ha, hfb⟩ := hg
  cases hs.fires with
  | humanEscalation _ he =>
    cases hat' with
    | applyHumanDecision h ho hp =>
      obtain rfl := Option.some.inj hp.decision_eq
      obtain rfl := Option.some.inj hp.source_eq
      exact guidanceUsed_iff h ho hp ha hfb hplan

/-- Human guidance is kept along every run whose steps meet the condition: the planner hears all of it, the next call
of the planner comes at once, and guidance on work that has begun is used.  For the latter the condition is exact. -/
theorem guidance_kept_iff {cfg : Settings} {s : OrchestratorState} (h0 : Fresh s) :
    (∀ tr c, Exec (fun c e c' => Step cfg c e c' ∧ Keeps cfg c e) (start s) tr c →
      (∀ task memory plan c', Step cfg c (.planTask task memory plan) c' →
        ∀ e ∈ tr, ∀ source g, Guides source g e → g ≠ "" → Text.Contains memory g) ∧
      (∀ e c', Step cfg c e c' → Keeps cfg c e → ∀ source g, Guides source g e → g ≠ "" →
        if source ∈ planSources then ∀ e' c'', Step cfg c' e' c'' → c''.next = .node .planTask
        else GuidanceUsed cfg c' g)) ∧
    (∀ tr c e c', Exec (Step cfg) (start s) tr c → Step cfg c e c' → ∀ source g, Guides source g e → g ≠ "" →
      source ∉ planSources → GuidanceUsed cfg c' g → KeepsGuidance cfg c.state g) := by
  constructor
  · intro tr c hr
    obtain ⟨hat, hmem, hph⟩ := memory_of_exec h0 hr
    constructor
    · intro task memory plan c' hs e he source g hg hne
      cases hs.fires with
      | planTask _ _ =>
        cases hat with
        | planTask hpr =>
          cases hmem with
          | heard _ hheard =>
            refine hheard.contains e he source g hg ?_ hne
            by_contra hsrc
            obtain ⟨escalation, decision, rfl, -⟩ := hg
            rcases hph source escalation decision he hsrc with hr' | ⟨sid, n, hn⟩
            · exact hr' hpr.review
            · have hnone := hpr.retryCounts
              dsimp only at hnone hn
              rw [hnone] at hn
              exact absurd hn (by simp)
    · intro e c' hs hk source g hg hne
      split
      · rename_i hplan
        exact fun e' c'' hs' => replans hat hs hg hplan hs'
      · rename_i hplan
        exact (guided_step_iff hat hs hg hplan).2 (hk source g hg hne)
  · intro tr c e c' hr hs source g hg _ hplan hused
    exact (guided_step_iff (at_of_exec h0 hr) hs hg hplan).1 hused

def askFirst : HumanDecision where
  action := .modify
  feedback := some "Ask first."

private theorem keeps_askFirst (escalation : EscalationRequest) : Keeps Settings.default
    ⟨sensitivePlanned, .node .humanEscalation⟩ (.humanEscalation .planSensitive escalation askFirst) := by
  rintro source g ⟨escalation', decision, he, -, hfb⟩ -
  obtain ⟨rfl, rfl, rfl⟩ := Event.humanEscalation.inj he
  obtain rfl := Option.some.inj hfb
  show ¬ Text.EndsInSpace "Ask first."
  rintro ⟨ch, hch, hspace⟩
  have hlast : "Ask first.".toList.getLast? = some '.' := by decide
  obtain rfl : '.' = ch := Option.some.inj (hlast.symm.trans hch)
  exact absurd hspace (by decide)

/-- A human's remark on a plan reaches the planner. -/
theorem askFirst_heard : ∃ tr c, Exec (Step Settings.default) (start sampleStart) tr c ∧ c.next = .node .planTask ∧
    (∃ e ∈ tr, Guides .planSensitive "Ask first." e) ∧
    ∀ task memory plan c', Step Settings.default c (.planTask task memory plan) c' →
      Text.Contains memory "Ask first." := by
  have hkept := @guidance_kept_iff Settings.default _ fresh_sampleStart
  have hquiet : ∀ (c : Config) (e : Event), ¬ IsDecision e → Keeps Settings.default c e :=
    fun c e hno source g ⟨escalation, decision, he, _⟩ => absurd ⟨source, escalation, decision, he⟩ hno
  obtain ⟨escalation, hesc⟩ := escalate_sensitivePlanned
  have hguides : Guides .planSensitive "Ask first." (.humanEscalation .planSensitive escalation askFirst) :=
    ⟨escalation, askFirst, rfl, rfl, rfl⟩
  have hs3 := (Fires.humanEscalation askFirst hesc).step
  have hr2 : Exec (fun c e c' => Step Settings.default c e c' ∧ Keeps Settings.default c e) (start sampleStart)
      [.intake, .planTask "Report" "" sensitivePlan] ⟨sensitivePlanned, .node .humanEscalation⟩ :=
    (Exec.single ⟨step_intake_sample, hquiet _ _ (by simp [IsDecision])⟩).snoc
      ⟨step_sensitivePlan, hquiet _ _ (by simp [IsDecision])⟩
  have hr3 := hr2.snoc ⟨hs3, keeps_askFirst escalation⟩
  obtain ⟨e, c4, hs4⟩ := exists_step_of_at (at_of_exec fresh_sampleStart (hr3.mono fun _ _ _ h => h.1)) (by simp)
  have hnext : c4.next = .node .planTask := by
    have hstep := (hkept.1 _ _ hr2).2 _ _ hs3 (keeps_askFirst escalation) .planSensitive "Ask first." hguides (by decide)
    rw [if_pos (by decide)] at hstep
    exact hstep e c4 hs4
  have hno : ¬ IsDecision e := by
    cases hs4.fires with
    | applyHumanDecision _ _ _ _ => simp [IsDecision]
  have hr4 := hr3.snoc ⟨hs4, hquiet _ e hno⟩
  refine ⟨_, c4, hr4.mono fun _ _ _ h => h.1, hnext, ⟨_, by simp, hguides⟩, fun task memory plan c' hs5 => ?_⟩
  exact (hkept.1 _ _ hr4).1 task memory plan c' hs5 _ (by simp) .planSensitive "Ask first." hguides (by decide)

/-- The human's remark after a review that lists a subtask. -/
def useTables : HumanDecision where
  action := .modify
  feedback := some "Use tables."

private def remarkOverwritten (tr : List Event) (_ : Config) : Bool :=
  match tr with
  | [.humanEscalation source _ decision, .applyHumanDecision _ _ update, .applyReviewFeedback _, .routeBatch,
      .specialists [run]] =>
    decide (source = .reviewSensitive ∧ decision = useTables ∧ update.get? "a" = some none ∧
      run.subtask.id = "a" ∧ run.feedback = some "Cite sources.")
  | _ => false

/-- The guidance of a MODIFY after a review is overwritten by the feedback of the reviewer. -/
theorem guidance_overwritten : ∃ tr c tr' c' escalation, Exec (Step Settings.default) (start sampleStart) tr c ∧
    Exec (Step Settings.default) c (.humanEscalation .reviewSensitive escalation useTables :: tr') c' ∧
    ∃ source decision update u run, tr' = [.applyHumanDecision source decision update, .applyReviewFeedback u,
        .routeBatch, .specialists [run]] ∧
      update.get? "a" = some none ∧ run.subtask.id = "a" ∧ run.feedback = some "Cite sources." := by
  have hscript : scriptEnds (step Settings.default) (start sampleStart)
      [.intake "t" none, .plan (samplePlan [sampleSubtask "a" []]), .none, .results (sampleResult true), .none,
        .review { sampleReview false ["a"] with requiresHumanReview := true }]
      (fun _ c => scriptEnds (step Settings.default) c
        [.decision useTables, .none, .none, .none, .results (sampleResult true)] remarkOverwritten) = true := by
    decide +kernel
  obtain ⟨tr, c, hr, hp⟩ := exec_of_scriptEnds hscript
  obtain ⟨tr', c', hr', hp'⟩ := exec_of_scriptEnds hp
  unfold remarkOverwritten at hp'
  split at hp'
  · rename_i source escalation decision source' decision' update u run
    obtain ⟨rfl, rfl, hu, hid, hf⟩ := of_decide_eq_true hp'
    exact ⟨tr, c, _, c', escalation, hr, hr', source', decision', update, u, run, rfl, hu, hid, hf⟩
  · exact absurd hp' (by simp)

end AgentOrchestrator
