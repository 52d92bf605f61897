import AgentOrchestrator.Graph.Nodes

/-!
# The invariant of a run

`Sound` is what holds of the channels from planning on, and `At` adds what is known at each node.

* Every id in `completed` can be worked off together with all it depends on, and has a retry count.
* Before the first review a retry count exists only for an id of the plan whose dependencies are done.
* After a review the whole plan can be worked off, and what is not done is among the ids to redo.

The first fact makes the length comparison of `decide_next_batch` exact, the second separates the three kinds of
escalation before a review, and the third rules out a deadlock after one.  `at_of_exec` says that `At` holds in every
run from a fresh state, and `At.leadsTo` where a step can go from there.
-/

namespace AgentOrchestrator

open Dependency Fallible

/-- Nothing has been worked off yet. -/
structure Pristine (s : OrchestratorState) : Prop where
  completed : s.completed = ∅
  retryCounts : s.retryCounts = ∅
  review : s.review = none

/-- What holds of the channels once there is a plan. -/
structure Sound (plan : ExecutionPlan) (s : OrchestratorState) : Prop where
  plan_eq : s.plan = some plan
  resolvable : ∀ sid result, s.completed.get? sid = some result → PlanResolvable plan sid
  counted : ∀ sid result, s.completed.get? sid = some result → ∃ n, s.retryCounts.get? sid = some n
  dispatched : s.review = none → ∀ sid n, s.retryCounts.get? sid = some n →
    sid ∈ planIds plan ∧ ∀ d, DependsOn plan sid d → isDone s.completed d = true
  reviewed : ∀ r, s.review = some r → ∀ sid ∈ planIds plan,
    PlanResolvable plan sid ∧ (isDone s.completed sid = true ∨ sid ∈ redoIds r plan)

/-- Why the run is at `human_escalation`. -/
inductive Origin (cfg : Settings) (plan : ExecutionPlan) (s : OrchestratorState) : Prop
  | plan (hp : Pristine s) (hn : needsApproval cfg s plan = true)
  | stuck (hs : (scan cfg plan s.completed s.retryCounts).stuck ≠ [])
  | blocked (hs : (scan cfg plan s.completed s.retryCounts).stuck = [])
      (hb : PlanBlocked plan fun sid => isDone s.completed sid = true) (hd : ¬ AllDone plan s.completed)
  | review {r : ReviewResult} (hr : s.review = some r) (hd : AllDone plan s.completed)
      (hn : r.requiresHumanReview = true ∨ r.approved = false ∧ cfg.maxReviewCycles ≤ (s.reviewCycles : Int))

/-- The decision that waits to be applied, and what the escalation was classified as. -/
structure Pending (cfg : Settings) (s : OrchestratorState) (source : EscalationSource) (decision : HumanDecision)
    (escalation : EscalationRequest) : Prop where
  decision_eq : s.humanDecision = some decision
  source_eq : s.escalationSource = some source
  escalation_eq : s.escalation = some escalation
  classified : Classified cfg s escalation.level source (escalation.context.stuckSubtaskIds.getD [])

/-- What is known when a node or a batch is about to run. -/
inductive At (cfg : Settings) (s : OrchestratorState) : Next → Prop
  | intake (h : Pristine s) : At cfg s (.node .intake)
  | planTask (h : Pristine s) : At cfg s (.node .planTask)
  | routeBatch {plan : ExecutionPlan} (h : Sound plan s) : At cfg s (.node .routeBatch)
  | send {plan : ExecutionPlan} (h : Sound plan s) (hs : (scan cfg plan s.completed s.retryCounts).stuck = [])
      (hr : (scan cfg plan s.completed s.retryCounts).ready ≠ []) {batch : List SendPayload}
      (hb : batch = (scan cfg plan s.completed s.retryCounts).ready.map (sendPayload plan s)) : At cfg s (.send batch)
  | review {plan : ExecutionPlan} (h : Sound plan s) (hd : AllDone plan s.completed) : At cfg s (.node .review)
  | applyReviewFeedback {plan : ExecutionPlan} (h : Sound plan s) {r : ReviewResult} (hr : s.review = some r) :
      At cfg s (.node .applyReviewFeedback)
  | notifyHuman {plan : ExecutionPlan} (h : Sound plan s) {r : ReviewResult} (hr : s.review = some r)
      (hd : AllDone plan s.completed) : At cfg s (.node .notifyHuman)
  | synthesize {plan : ExecutionPlan} (h : Sound plan s) : At cfg s (.node .synthesize)
  | deliver {plan : ExecutionPlan} (h : Sound plan s) : At cfg s (.node .deliver)
  | rejectTask {plan : ExecutionPlan} (h : Sound plan s) : At cfg s (.node .rejectTask)
  | humanEscalation {plan : ExecutionPlan} (h : Sound plan s) (ho : Origin cfg plan s) :
      At cfg s (.node .humanEscalation)
  | applyHumanDecision {plan : ExecutionPlan} (h : Sound plan s) (ho : Origin cfg plan s)
      {source : EscalationSource} {decision : HumanDecision} {escalation : EscalationRequest}
      (hp : Pending cfg s source decision escalation) : At cfg s (.node .applyHumanDecision)
  | finish : At cfg s .finish

/-! ### Consequences of `Sound` -/

theorem isDone_congr {completed completed' : Dict String SubtaskResult} {sid : String}
    (h : completed.get? sid = completed'.get? sid) : isDone completed sid = isDone completed' sid := by
  unfold isDone
  rw [h]

theorem Sound.mem_planIds {plan : ExecutionPlan} {s : OrchestratorState} (h : Sound plan s) (sid : String)
    (result : SubtaskResult) (hr : s.completed.get? sid = some result) : sid ∈ planIds plan :=
  (h.resolvable sid result hr).isKnown

theorem Sound.plan_unique {plan plan' : ExecutionPlan} {s : OrchestratorState} (h : Sound plan s)
    (h' : s.plan = some plan') : plan = plan' := Option.some.inj (h.plan_eq.symm.trans h')

/-- `Sound` reads four channels. -/
theorem Sound.congr {plan : ExecutionPlan} {s s' : OrchestratorState} (h : Sound plan s) (hp : s'.plan = s.plan)
    (hc : s'.completed = s.completed) (hr : s'.retryCounts = s.retryCounts) (hv : s'.review = s.review) :
    Sound plan s' := by
  constructor
  · rw [hp]
    exact h.plan_eq
  · rw [hc]
    exact h.resolvable
  · rw [hc, hr]
    exact h.counted
  · rw [hv, hr, hc]
    exact h.dispatched
  · rw [hv, hc]
    exact h.reviewed

/-- A subtask whose dependencies are done can be worked off together with them. -/
theorem Sound.resolvable_of_depsDone {plan : ExecutionPlan} {s : OrchestratorState} (h : Sound plan s) {sid : String}
    (hs : sid ∈ planIds plan) (hd : ∀ d, DependsOn plan sid d → isDone s.completed d = true) :
    PlanResolvable plan sid := by
  refine .intro hs fun d hdep => ?_
  obtain ⟨result, hr, -⟩ := isDone_iff.1 (hd d hdep)
  exact h.resolvable d result hr

/-- The two ways of finding the stuck subtasks agree. -/
theorem Sound.mem_stuckIds_iff {cfg : Settings} {plan : ExecutionPlan} {s : OrchestratorState} (h : Sound plan s)
    {sid : String} : sid ∈ stuckIds cfg s ↔ sid ∈ (scan cfg plan s.completed s.retryCounts).stuck := by
  rw [mem_stuckIds, mem_scan_stuck]
  constructor
  · rintro ⟨n, result, hn, hmax, hr, hs⟩
    refine ⟨h.mem_planIds sid result hr, result, hr, hs, ?_⟩
    rw [hn]
    exact hmax
  · rintro ⟨-, result, hr, hs, hmax⟩
    obtain ⟨n, hn⟩ := h.counted sid result hr
    rw [hn] at hmax
    exact ⟨n, result, hn, hmax, hr, hs⟩

theorem Sound.mem_stuckIds_iff_stuck {cfg : Settings} {plan : ExecutionPlan} {s : OrchestratorState}
    (h : Sound plan s) {sid : String} : sid ∈ stuckIds cfg s ↔ Stuck cfg s.completed s.retryCounts sid := by
  rw [h.mem_stuckIds_iff, mem_scan_stuck]
  constructor
  · exact fun hs => hs.2
  · rintro ⟨result, hr, hs⟩
    exact ⟨h.mem_planIds sid result hr, result, hr, hs⟩

/-- After a review the plan cannot be blocked. -/
theorem Sound.not_blocked_of_review {plan : ExecutionPlan} {s : OrchestratorState} (h : Sound plan s)
    {r : ReviewResult} (hr : s.review = some r) {done : String → Prop} (hd : ¬ ∀ sid ∈ planIds plan, done sid) :
    ¬ PlanBlocked plan done := by
  simp only [not_forall] at hd
  obtain ⟨sid, hs, hnd⟩ := hd
  exact (h.reviewed r hr sid hs).1.not_blocked hnd

/-- A blocked plan without results has no retry counts. -/
theorem Sound.pristine_of_blocked {plan : ExecutionPlan} {s : OrchestratorState} (h : Sound plan s)
    (hc : s.completed = ∅) (hr : s.review = none)
    (hb : PlanBlocked plan fun sid => isDone s.completed sid = true) : Pristine s := by
  refine ⟨hc, Dict.eq_empty_of_isEmpty (Dict.isEmpty_iff.2 fun sid => ?_), hr⟩
  rw [Option.eq_none_iff_forall_ne_some]
  intro n hn
  obtain ⟨hs, hdeps⟩ := h.dispatched hr sid n hn
  obtain ⟨d, hd, hnd⟩ := hb sid hs (by rw [hc]; simp [isDone])
  exact hnd (hdeps d hd)

theorem scan_stuck_of_empty {cfg : Settings} {plan : ExecutionPlan} {retryCounts : Dict String Nat} :
    (scan cfg plan ∅ retryCounts).stuck = [] := by
  rw [List.eq_nil_iff_forall_not_mem]
  intro sid hs
  obtain ⟨-, result, hr, -⟩ := mem_scan_stuck.1 hs
  exact absurd hr (by simp)

/-- Nothing is stuck when everything is done. -/
theorem scan_stuck_of_allDone {cfg : Settings} {plan : ExecutionPlan} {completed : Dict String SubtaskResult}
    {retryCounts : Dict String Nat} (h : AllDone plan completed) : (scan cfg plan completed retryCounts).stuck = [] := by
  rw [List.eq_nil_iff_forall_not_mem]
  intro sid hs
  obtain ⟨hk, hst⟩ := mem_scan_stuck.1 hs
  exact not_isDone_of_stuck hst (h sid hk)

/-- A plan source is only worked out before any work. -/
theorem Origin.pristine {cfg : Settings} {plan : ExecutionPlan} {s : OrchestratorState} {level : EscalationLevel}
    {source : EscalationSource} {stuck : List String} (ho : Origin cfg plan s) (h : Sound plan s)
    (hc : Classified cfg s level source stuck) (hs : source ∈ planSources) : Pristine s := by
  cases hc with
  | plan hc hr _ =>
    cases ho with
    | plan hp _ => exact hp
    | stuck hst =>
      rw [hc] at hst
      exact absurd scan_stuck_of_empty hst
    | blocked _ hb _ => exact h.pristine_of_blocked hc hr hb
    | review hr' _ _ => exact absurd (hr.symm.trans hr') (by simp)
  | sensitive _ _ => exact absurd hs (by decide)
  | exhausted _ _ => exact absurd hs (by decide)
  | retry _ _ => exact absurd hs (by decide)

theorem Classified.of_retry {cfg : Settings} {s : OrchestratorState} {level : EscalationLevel}
    {source : EscalationSource} {stuck : List String} (hc : Classified cfg s level source stuck)
    (hs : source = .specialistRetry) : s.review = none ∧ s.completed ≠ ∅ ∧ stuck = stuckIds cfg s := by
  cases hc with
  | plan _ _ hp =>
    rw [hs] at hp
    exact absurd hp (by decide)
  | sensitive _ _ => exact absurd hs (by decide)
  | exhausted _ _ => exact absurd hs (by decide)
  | retry hc hr => exact ⟨hr, hc, rfl⟩

theorem Classified.of_review {cfg : Settings} {s : OrchestratorState} {level : EscalationLevel}
    {source : EscalationSource} {stuck : List String} (hc : Classified cfg s level source stuck)
    (hs : source ∉ planSources) (hs' : source ≠ .specialistRetry) : ∃ r, s.review = some r := by
  cases hc with
  | plan _ _ hp => exact absurd hp hs
  | sensitive hr _ => exact ⟨_, hr⟩
  | exhausted hr _ => exact ⟨_, hr⟩
  | retry _ _ => exact absurd rfl hs'

/-! ### Preservation of `Sound` -/

/-- A new plan before any work. -/
theorem Pristine.planTask {s : OrchestratorState} (h : Pristine s) (plan : ExecutionPlan) :
    Pristine (s.apply (planTask plan)) ∧ Sound plan (s.apply (planTask plan)) := by
  have hc : (s.apply (AgentOrchestrator.planTask plan)).completed = ∅ := h.completed
  have hr : (s.apply (AgentOrchestrator.planTask plan)).retryCounts = ∅ := h.retryCounts
  have hv : (s.apply (AgentOrchestrator.planTask plan)).review = none := h.review
  refine ⟨⟨hc, hr, hv⟩, rfl, ?_, ?_, ?_, ?_⟩
  · intro sid result hs
    rw [hc] at hs
    exact absurd hs (by simp)
  · intro sid result hs
    rw [hc] at hs
    exact absurd hs (by simp)
  · intro _ sid n hs
    rw [hr] at hs
    exact absurd hs (by simp)
  · intro r hs
    rw [hv] at hs
    exact absurd hs (by simp)

/-- A batch of ready subtasks. -/
theorem Sound.batch {cfg : Settings} {plan : ExecutionPlan} {s s' : OrchestratorState} (h : Sound plan s)
    {result : String → SubtaskResult}
    (he : BatchEffect s result (scan cfg plan s.completed s.retryCounts).ready s s') : Sound plan s' := by
  have hplan : s'.plan = s.plan := by rw [he.frame]
  have hreview : s'.review = s.review := by rw [he.frame]
  -- what was done before the batch was not in it
  have hdone : ∀ d, isDone s.completed d = true → isDone s'.completed d = true := by
    intro d hd
    have hnot : d ∉ (scan cfg plan s.completed s.retryCounts).ready := fun hr => (mem_scan_ready.1 hr).2.1 hd
    have heq : s'.completed.get? d = s.completed.get? d := by rw [he.completed, if_neg hnot]
    rw [isDone_congr heq]
    exact hd
  constructor
  · rw [hplan]
    exact h.plan_eq
  · intro sid r hr
    rw [he.completed] at hr
    split at hr
    · rename_i hready
      obtain ⟨hk, -, -, hdeps⟩ := mem_scan_ready.1 hready
      exact h.resolvable_of_depsDone hk hdeps
    · exact h.resolvable sid r hr
  · intro sid r hr
    rw [he.completed] at hr
    rw [he.retryCounts]
    split
    · exact ⟨_, rfl⟩
    · rename_i hready
      rw [if_neg hready] at hr
      exact h.counted sid r hr
  · intro hnone sid n hn
    rw [hreview] at hnone
    rw [he.retryCounts] at hn
    split at hn
    · rename_i hready
      obtain ⟨hk, -, -, hdeps⟩ := mem_scan_ready.1 hready
      exact ⟨hk, fun d hd => hdone d (hdeps d hd)⟩
    · obtain ⟨hk, hdeps⟩ := h.dispatched hnone sid n hn
      exact ⟨hk, fun d hd => hdone d (hdeps d hd)⟩
  · intro r hr sid hs
    rw [hreview] at hr
    obtain ⟨hres, hor⟩ := h.reviewed r hr sid hs
    refine ⟨hres, ?_⟩
    rcases hor with hd | hredo
    · exact Or.inl (hdone sid hd)
    · exact Or.inr hredo

/-- A review of a finished plan. -/
theorem Sound.review {plan : ExecutionPlan} {s : OrchestratorState} (h : Sound plan s) (hd : AllDone plan s.completed)
    (r : ReviewResult) : Sound plan (s.apply (review r s)) := by
  refine ⟨h.plan_eq, h.resolvable, h.counted, ?_, ?_⟩
  · intro hnone
    exact absurd hnone (by simp [AgentOrchestrator.review])
  · intro r' _ sid hs
    obtain ⟨result, hr, -⟩ := isDone_iff.1 (hd sid hs)
    exact ⟨h.resolvable sid result hr, Or.inl (hd sid hs)⟩

/-- Putting back ids to redo, after a review. -/
theorem Sound.redo {plan : ExecutionPlan} {s s' : OrchestratorState} (h : Sound plan s) {r : ReviewResult}
    (hr : s.review = some r) {ids : List String} (hids : ids ⊆ redoIds r plan) (hp : s'.plan = s.plan)
    (hc : ∀ sid, s'.completed.get? sid = if sid ∈ ids then none else s.completed.get? sid)
    (hrc : s'.retryCounts = s.retryCounts) (hv : s'.review = s.review) : Sound plan s' := by
  have hsub : ∀ sid result, s'.completed.get? sid = some result → s.completed.get? sid = some result := by
    intro sid result hs
    rw [hc] at hs
    split at hs
    · exact absurd hs (by simp)
    · exact hs
  constructor
  · rw [hp]
    exact h.plan_eq
  · exact fun sid result hs => h.resolvable sid result (hsub sid result hs)
  · rw [hrc]
    exact fun sid result hs => h.counted sid result (hsub sid result hs)
  · rw [hv, hr]
    exact fun hnone => absurd hnone (by simp)
  · intro r' hr' sid hs
    rw [hv] at hr'
    obtain rfl := Option.some.inj (hr.symm.trans hr')
    obtain ⟨hres, hor⟩ := h.reviewed r hr sid hs
    refine ⟨hres, ?_⟩
    by_cases hin : sid ∈ ids
    · exact Or.inr (hids hin)
    · have heq : s'.completed.get? sid = s.completed.get? sid := by rw [hc, if_neg hin]
      rw [isDone_congr heq]
      exact hor

/-- Writing the entries of stuck subtasks, before a review: their dependencies are done and stay so. -/
theorem Sound.ofStuck {cfg : Settings} {plan : ExecutionPlan} {s s' : OrchestratorState} (h : Sound plan s)
    (hnone : s.review = none) (hp : s'.plan = s.plan)
    (hc : ∀ sid, sid ∉ stuckIds cfg s → s'.completed.get? sid = s.completed.get? sid)
    (hrc : ∀ sid, sid ∉ stuckIds cfg s → s'.retryCounts.get? sid = s.retryCounts.get? sid)
    (hrc' : ∀ sid ∈ stuckIds cfg s, ∃ n, s'.retryCounts.get? sid = some n) (hv : s'.review = s.review) :
    Sound plan s' := by
  have hdone : ∀ d, isDone s.completed d = true → isDone s'.completed d = true := by
    intro d hd
    have hnot : d ∉ stuckIds cfg s := fun hs =>
      not_isDone_of_stuck (mem_scan_stuck.1 (h.mem_stuckIds_iff.1 hs)).2 hd
    rw [isDone_congr (hc d hnot)]
    exact hd
  constructor
  · rw [hp]
    exact h.plan_eq
  · intro sid result hs
    by_cases hst : sid ∈ stuckIds cfg s
    · obtain ⟨_, result', _, _, hr', _⟩ := mem_stuckIds.1 hst
      exact h.resolvable sid result' hr'
    · rw [hc sid hst] at hs
      exact h.resolvable sid result hs
  · intro sid result hs
    by_cases hst : sid ∈ stuckIds cfg s
    · exact hrc' sid hst
    · rw [hc sid hst] at hs
      rw [hrc sid hst]
      exact h.counted sid result hs
  · intro _ sid n hn
    have hold : ∃ n, s.retryCounts.get? sid = some n := by
      by_cases hst : sid ∈ stuckIds cfg s
      · obtain ⟨n', _, hn', _⟩ := mem_stuckIds.1 hst
        exact ⟨n', hn'⟩
      · rw [hrc sid hst] at hn
        exact ⟨n, hn⟩
    obtain ⟨n', hn'⟩ := hold
    obtain ⟨hk, hdeps⟩ := h.dispatched hnone sid n' hn'
    exact ⟨hk, fun d hd => hdone d (hdeps d hd)⟩
  · rw [hv, hnone]
    exact fun r hr => absurd hr (by simp)

/-! ### One step -/

/-- Storing the escalation and the decision touches nothing the classification reads. -/
private theorem origin_escalated {cfg : Settings} {plan : ExecutionPlan} {s : OrchestratorState}
    (ho : Origin cfg plan s) (escalation : EscalationRequest) (source : EscalationSource) (decision : HumanDecision) :
    Origin cfg plan (s.apply {
      escalation := some escalation
      escalationSource := some source
      humanDecision := some decision }) := by
  cases ho with
  | plan hp hn => exact .plan ⟨hp.completed, hp.retryCounts, hp.review⟩ hn
  | stuck hs => exact .stuck hs
  | blocked hs hb hd => exact .blocked hs hb hd
  | review hr hd hn => exact .review hr hd hn

private theorem classified_escalated {cfg : Settings} {s : OrchestratorState} {level : EscalationLevel}
    {source : EscalationSource} {stuck : List String} (hc : Classified cfg s level source stuck)
    (escalation : EscalationRequest) (decision : HumanDecision) :
    Classified cfg (s.apply {
      escalation := some escalation
      escalationSource := some source
      humanDecision := some decision }) level source stuck := by
  cases hc with
  | plan hc hr hs => exact .plan hc hr hs
  | sensitive hr h => exact .sensitive hr h
  | exhausted hr h => exact .exhausted hr h
  | retry hc hr => exact .retry hc hr

/-- Applying a decision leads to one of six nodes, each with its part of the invariant. -/
theorem At.ofDecided {cfg : Settings} {plan : ExecutionPlan} {s : OrchestratorState} {level : EscalationLevel}
    {source : EscalationSource} {decision : HumanDecision} {stuck : List String} {u : Update} {n : Next}
    (h : Sound plan s) (ho : Origin cfg plan s) (hc : Classified cfg s level source stuck)
    (hd : Decided s source decision stuck u n) : At cfg (s.apply u) n := by
  cases hd with
  | reject ha => exact .rejectTask (h.congr rfl rfl rfl rfl)
  | takeOver ha hs => exact .deliver (h.congr rfl rfl rfl rfl)
  | supply ha hs hin hout =>
    obtain ⟨hnone, -, rfl⟩ := hc.of_retry hs
    refine .routeBatch (@Sound.ofStuck cfg _ _ _ h hnone rfl (fun sid hst => ?_) (fun sid _ => rfl) (fun sid hst => ?_) rfl)
    · simp [hout sid hst]
    · obtain ⟨n, _, hn, _⟩ := mem_stuckIds.1 hst
      exact ⟨n, hn⟩
  | replan ha hs =>
    have hp := ho.pristine h hc hs
    exact .planTask ⟨hp.completed, hp.retryCounts, hp.review⟩
  | guide ha hs | retry ha hs =>
    obtain ⟨hnone, -, rfl⟩ := hc.of_retry hs
    refine .routeBatch (@Sound.ofStuck cfg _ _ _ h hnone rfl (fun sid hst => ?_) (fun sid hst => ?_) (fun sid hst => ?_) rfl)
    · simp [hst]
    · simp [hst]
    · simp [hst]
  | redo ha hs hs' hr hp =>
    obtain rfl := h.plan_unique hp
    refine .applyReviewFeedback (h.redo hr (List.Subset.refl _) rfl (fun sid => ?_) rfl rfl) hr
    exact get?_merge_ofKeys _ _ _ sid
  | resume ha hs => exact .routeBatch (h.congr rfl rfl rfl rfl)
  | accept ha hs hs' => exact .synthesize (h.congr rfl rfl rfl rfl)

/-- The ids the reviewer lists are among the ids to redo. -/
theorem subset_redoIds (r : ReviewResult) (plan : ExecutionPlan) : r.subtasksToRedo ⊆ redoIds r plan := by
  unfold redoIds
  split
  · rename_i h
    rw [h]
    exact List.nil_subset _
  · exact List.Subset.refl _

/-- What the execution of a batch does, under the invariant. -/
theorem At.dispatched {cfg : Settings} {s : OrchestratorState} {batch : List SendPayload} (h : At cfg s (.send batch))
    {result : String → SubtaskResult} {branches : List (SpecialistRun × Update)}
    (hb : runBatch result batch = .ok branches) :
    ∃ plan, Sound plan s ∧ (scan cfg plan s.completed s.retryCounts).ready ≠ [] ∧
      List.Forall₂ (Ran plan s result) (scan cfg plan s.completed s.retryCounts).ready (branches.map Prod.fst) ∧
      BatchEffect s result (scan cfg plan s.completed s.retryCounts).ready s
        (applyAll s (branches.map Prod.snd)) := by
  cases h with
  | @send plan hsound _ hready _ hbatch =>
    rw [hbatch] at hb
    obtain ⟨hran, heff⟩ := batchEffect_of_runBatch hb s
    exact ⟨plan, hsound, hready, hran, heff⟩

/-- What a step of `apply_human_decision` does, under the invariant. -/
theorem At.decided {cfg : Settings} {s : OrchestratorState} (h : At cfg s (.node .applyHumanDecision))
    {decision : HumanDecision} {source : EscalationSource} {u : Update} {n : Next}
    (hd : s.humanDecision = some decision) (hs : s.escalationSource = some source)
    (hu : AgentOrchestrator.applyHumanDecision s = .ok u) (hn : routeAfterDecision (s.apply u) = .ok n) :
    ∃ plan escalation, Sound plan s ∧ Origin cfg plan s ∧ Pending cfg s source decision escalation ∧
      Decided s source decision (escalation.context.stuckSubtaskIds.getD []) u n := by
  cases h with
  | @applyHumanDecision plan hsound ho source' decision' escalation hp =>
    obtain rfl := Option.some.inj (hd.symm.trans hp.decision_eq)
    obtain rfl := Option.some.inj (hs.symm.trans hp.source_eq)
    exact ⟨plan, escalation, hsound, ho, hp, decided_of_apply hd hs hp.escalation_eq hu hn⟩

/-- Every step keeps the invariant, one case for each node. -/
theorem At.step {cfg : Settings} {c c' : Config} {e : Event} (h : At cfg c.state c.next) (hf : Fires cfg c e c') :
    At cfg c'.state c'.next := by
  cases hf with
  | intake uuid memories =>
    cases h with
    | intake hp => exact .planTask ⟨hp.completed, hp.retryCounts, hp.review⟩
  | planTask plan hn =>
    cases h with
    | planTask hp =>
      obtain ⟨hp', hs⟩ := hp.planTask plan
      rw [routeAfterPlan_eq hs.plan_eq hn]
      split
      · rename_i hneeds
        exact .humanEscalation hs (.plan hp' hneeds)
      · exact .routeBatch hs
  | routeBatch hn =>
    cases h with
    | routeBatch hs =>
      have hd := decides_of_eq hs.plan_eq hs.mem_planIds hn
      cases hd with
      | stuck hst => exact .humanEscalation hs (.stuck hst)
      | batch hst hr => exact .send hs hst hr rfl
      | blocked hst hb hd => exact .humanEscalation hs (.blocked hst hb hd)
      | review hd => exact .review hs hd
  | specialists result hb =>
    obtain ⟨plan, hs, -, -, heff⟩ := h.dispatched hb
    exact .routeBatch (hs.batch heff)
  | review result hn =>
    cases h with
    | review hs hd =>
      have hs' := hs.review hd result
      have hrev := reviewed_of_route (r := result) rfl hn
      cases hrev with
      | escalate h => exact .humanEscalation hs' (.review rfl hd h)
      | notify _ _ _ => exact .notifyHuman hs' rfl hd
      | accept _ _ _ => exact .synthesize hs'
      | redo _ _ _ => exact .applyReviewFeedback hs' rfl
  | applyReviewFeedback hu =>
    cases h with
    | applyReviewFeedback hs hr =>
      obtain ⟨r, hr', rfl⟩ := update_of_applyReviewFeedback hu
      obtain rfl := Option.some.inj (hr.symm.trans hr')
      refine .routeBatch (hs.redo hr (subset_redoIds _ _) rfl (fun sid => ?_) rfl rfl)
      exact get?_merge_ofKeys _ _ _ sid
  | notifyHuman hu =>
    cases h with
    | notifyHuman hs _ hd =>
      obtain ⟨escalation, rfl⟩ := update_of_notifyHuman hu
      exact .synthesize (hs.congr rfl rfl rfl rfl)
  | synthesize text =>
    cases h with
    | synthesize hs => exact .deliver (hs.congr rfl rfl rfl rfl)
  | deliver memory hu => exact .finish
  | rejectTask => exact .finish
  | humanEscalation decision he =>
    cases h with
    | humanEscalation hs ho =>
      exact .applyHumanDecision (hs.congr rfl rfl rfl rfl) (origin_escalated ho _ _ _)
        ⟨rfl, rfl, rfl, classified_escalated (classified_of_escalate he) _ _⟩
  | applyHumanDecision hd hs hu hn =>
    obtain ⟨plan, escalation, hsound, ho, hp, hdec⟩ := h.decided hd hs hu hn
    exact At.ofDecided hsound ho hp.classified hdec

/-- The edges of the graph. -/
def Event.LeadsTo : Event → Next → Prop
  | .intake, n => n = .node .planTask
  | .planTask _ _ _, n => n = .node .humanEscalation ∨ n = .node .routeBatch
  | .routeBatch, n => n = .node .humanEscalation ∨ n = .node .review ∨ ∃ batch, n = .send batch
  | .specialists _, n => n = .node .routeBatch
  | .review _ _, n =>
    n = .node .humanEscalation ∨ n = .node .notifyHuman ∨ n = .node .synthesize ∨ n = .node .applyReviewFeedback
  | .applyReviewFeedback _, n => n = .node .routeBatch
  | .notifyHuman, n => n = .node .synthesize
  | .synthesize _ _, n => n = .node .deliver
  | .deliver _, n => n = .finish
  | .rejectTask, n => n = .finish
  | .humanEscalation _ _ _, n => n = .node .applyHumanDecision
  | .applyHumanDecision _ _ _, n => n = .node .rejectTask ∨ n = .node .deliver ∨ n = .node .planTask ∨
      n = .node .routeBatch ∨ n = .node .applyReviewFeedback ∨ n = .node .synthesize

/-- Every step goes along an edge of the graph. -/
theorem At.leadsTo {cfg : Settings} {c c' : Config} {e : Event} (h : At cfg c.state c.next) (hf : Fires cfg c e c') :
    e.LeadsTo c'.next := by
  cases hf with
  | @planTask s plan n hroute =>
    have hplan : (s.apply (AgentOrchestrator.planTask plan)).plan = some plan := rfl
    rw [routeAfterPlan_eq hplan hroute]
    split
    · exact Or.inl rfl
    · exact Or.inr rfl
  | routeBatch hroute =>
    cases h with
    | routeBatch hs => cases decides_of_eq hs.plan_eq hs.mem_planIds hroute <;> simp [Event.LeadsTo]
  | review result hroute => cases reviewed_of_route (r := result) rfl hroute <;> simp [Event.LeadsTo]
  | applyHumanDecision hd hs hu hroute =>
    obtain ⟨plan, escalation, -, -, -, hdecided⟩ := h.decided hd hs hu hroute
    cases hdecided <;> simp [Event.LeadsTo]
  | _ => rfl

/-- No step leads back to `intake`. -/
theorem At.not_intake {cfg : Settings} {c c' : Config} {e : Event} (h : At cfg c.state c.next) (hf : Fires cfg c e c') :
    c'.next ≠ .node .intake := by
  intro hn
  have hedge := h.leadsTo hf
  rw [hn] at hedge
  cases e with
  | _ => simp [Event.LeadsTo] at hedge

/-- Only `deliver` and `reject_task` lead to the end. -/
theorem At.finishes {cfg : Settings} {c c' : Config} {e : Event} (h : At cfg c.state c.next) (hf : Fires cfg c e c')
    (hn : c'.next = .finish) :
    (c.next = .node .deliver ∧ (∃ record, e = .deliver record) ∧
        c'.state = c.state.apply { status := some .completed }) ∨
      (c.next = .node .rejectTask ∧ e = .rejectTask ∧ c'.state = c.state.apply { status := some .rejected }) := by
  have hedge := h.leadsTo hf
  rw [hn] at hedge
  cases hf with
  | deliver memory hu =>
    obtain rfl := update_of_deliver hu
    exact Or.inl ⟨rfl, ⟨_, rfl⟩, rfl⟩
  | rejectTask => exact Or.inr ⟨rfl, rfl, rfl⟩
  | _ => simp [Event.LeadsTo] at hedge

/-! ### Runs -/

theorem at_start {cfg : Settings} {s : OrchestratorState} (h : Fresh s) : At cfg s (.node .intake) :=
  .intake ⟨h.completed, h.retryCounts, h.review⟩

/-- The invariant holds throughout every run from a fresh state. -/
theorem at_of_exec {cfg : Settings} {s : OrchestratorState} {tr : List Event} {c : Config} (h0 : Fresh s)
    (h : Exec (Step cfg) (start s) tr c) : At cfg c.state c.next :=
  h.stateInvariant (fun c => At cfg c.state c.next) (at_start h0) fun _ _ _ hp hs => hp.step hs.fires

end AgentOrchestrator
