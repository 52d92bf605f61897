import AgentOrchestrator.Graph.Scheduler

/-!
# What the nodes write

One description for each node that does more than overwrite a channel.

* A batch gives every dispatched id the result of its specialist and touches only `completed` and `retry_counts`
  (`batchEffect_of_runBatch`).
* The routers after planning and after a review answer as `routeAfterPlan_eq` and `Reviewed` say.
* `human_escalation` tells its four cases apart by `completed` and `review` alone (`classified_of_escalate`).
* `apply_human_decision` and the router after it have nine cases, by the action and the source (`Decided`).
-/

namespace AgentOrchestrator

open Fallible

/-! ### A batch of specialists -/

/-- `run` is the branch of `sid` in a batch dispatched from `s`. -/
structure Ran (plan : ExecutionPlan) (s : OrchestratorState) (result : String → SubtaskResult) (sid : String)
    (run : SpecialistRun) : Prop where
  plan_eq : run.plan = plan
  subtask : (plan.subtasks.find? fun st => st.id = sid) = some run.subtask
  context : run.context = s.completed
  feedback : run.feedback = s.subtaskFeedback.get? sid
  result : run.result = result sid

/-- A batch dispatched from `s` turns `t` into `t'`. -/
structure BatchEffect (s : OrchestratorState) (result : String → SubtaskResult) (ready : List String)
    (t t' : OrchestratorState) : Prop where
  completed : ∀ sid, t'.completed.get? sid = if sid ∈ ready then some (result sid) else t.completed.get? sid
  retryCounts : ∀ sid, t'.retryCounts.get? sid =
    if sid ∈ ready then some ((s.retryCounts.get? sid).getD 0 + if (result sid).success then 0 else 1)
    else t.retryCounts.get? sid
  frame : t' = { t with completed := t'.completed, retryCounts := t'.retryCounts }

theorem Ran.id {plan : ExecutionPlan} {s : OrchestratorState} {result : String → SubtaskResult} {sid : String}
    {run : SpecialistRun} (h : Ran plan s result sid run) : run.subtask.id = sid := by
  simpa using List.find?_some h.subtask

private theorem runSpecialist_sendPayload {plan : ExecutionPlan} {s : OrchestratorState}
    {result : String → SubtaskResult} {sid : String} {run : SpecialistRun} {u : Update}
    (h : runSpecialist (result sid) (sendPayload plan s sid) = .ok (run, u)) :
    Ran plan s result sid run ∧ ∀ t : OrchestratorState, BatchEffect s result [sid] t (t.apply u) := by
  unfold runSpecialist at h
  split at h
  · exact absurd h (by simp)
  · rename_i subtask hfind
    obtain ⟨rfl, rfl⟩ := Prod.mk.inj (Except.ok.inj h)
    refine ⟨⟨rfl, hfind, rfl, rfl, rfl⟩, fun t => ⟨fun x => ?_, fun x => ?_, rfl⟩⟩
    · by_cases hx : x = sid
      · simp [sendPayload, hx]
      · simp [sendPayload, hx]
    · by_cases hx : x = sid
      · simp [sendPayload, hx]
      · simp [sendPayload, hx]

private theorem BatchEffect.cons {s t t' t'' : OrchestratorState} {result : String → SubtaskResult} {sid : String}
    {ready : List String} (h : BatchEffect s result [sid] t t') (h' : BatchEffect s result ready t' t'') :
    BatchEffect s result (sid :: ready) t t'' := by
  refine ⟨fun x => ?_, fun x => ?_, ?_⟩
  · rw [h'.completed, h.completed]
    by_cases hx : x ∈ ready
    · simp [hx]
    · by_cases hs : x = sid
      · simp [hs]
      · simp [hx, hs]
  · rw [h'.retryCounts, h.retryCounts]
    by_cases hx : x ∈ ready
    · simp [hx]
    · by_cases hs : x = sid
      · simp [hs]
      · simp [hx, hs]
  · have h1 := h.frame
    have h2 := h'.frame
    rw [h1] at h2
    exact h2

/-- The step lemma of a batch: every id of the batch ran once, and the effect on the channels. -/
theorem batchEffect_of_runBatch {plan : ExecutionPlan} {s : OrchestratorState} {result : String → SubtaskResult}
    {ready : List String} {branches : List (SpecialistRun × Update)}
    (h : runBatch result (ready.map (sendPayload plan s)) = .ok branches) (t : OrchestratorState) :
    List.Forall₂ (Ran plan s result) ready (branches.map Prod.fst) ∧
      BatchEffect s result ready t (applyAll t (branches.map Prod.snd)) := by
  induction ready generalizing branches t with
  | nil =>
    obtain rfl : branches = [] := (Except.ok.inj h).symm
    exact ⟨.nil, fun x => by simp [applyAll], fun x => by simp [applyAll], rfl⟩
  | cons sid ready ih =>
    unfold runBatch at h ih
    rw [List.map_cons, List.mapM_cons] at h
    obtain ⟨⟨run, u⟩, h1, h⟩ := bind_eq_ok_iff.1 h
    obtain ⟨rest, h2, h⟩ := bind_eq_ok_iff.1 h
    obtain rfl : (run, u) :: rest = branches := Except.ok.inj h
    obtain ⟨hran, heff⟩ := runSpecialist_sendPayload h1
    obtain ⟨ih1, ih2⟩ := ih h2 (t.apply u)
    exact ⟨.cons hran ih1, (heff t).cons ih2⟩

theorem exists_ran_of_mem {plan : ExecutionPlan} {s : OrchestratorState} {result : String → SubtaskResult}
    {ready : List String} {runs : List SpecialistRun} (h : List.Forall₂ (Ran plan s result) ready runs)
    {run : SpecialistRun} (hm : run ∈ runs) : ∃ sid ∈ ready, Ran plan s result sid run := by
  induction h with
  | nil => exact absurd hm List.not_mem_nil
  | @cons sid _ ready _ hr _ ih =>
    rcases List.mem_cons.1 hm with rfl | hm
    · exact ⟨sid, List.mem_cons_self, hr⟩
    · obtain ⟨x, hx, hran⟩ := ih hm
      exact ⟨x, List.mem_cons_of_mem _ hx, hran⟩

theorem exists_run_of_mem {plan : ExecutionPlan} {s : OrchestratorState} {result : String → SubtaskResult}
    {ready : List String} {runs : List SpecialistRun} (h : List.Forall₂ (Ran plan s result) ready runs)
    {sid : String} (hm : sid ∈ ready) : ∃ run ∈ runs, Ran plan s result sid run := by
  induction h with
  | nil => exact absurd hm List.not_mem_nil
  | @cons a run _ runs hr _ ih =>
    rcases List.mem_cons.1 hm with rfl | hm
    · exact ⟨run, List.mem_cons_self, hr⟩
    · obtain ⟨x, hx, hran⟩ := ih hm
      exact ⟨x, List.mem_cons_of_mem _ hx, hran⟩

/-- A batch of ids of the plan runs through. -/
theorem exists_runBatch {plan : ExecutionPlan} (s : OrchestratorState) (result : String → SubtaskResult)
    {ready : List String} (h : ∀ sid ∈ ready, sid ∈ planIds plan) :
    ∃ branches, runBatch result (ready.map (sendPayload plan s)) = .ok branches := by
  induction ready with
  | nil => exact ⟨[], rfl⟩
  | cons sid ready ih =>
    obtain ⟨rest, hrest⟩ := ih fun x hx => h x (List.mem_cons_of_mem _ hx)
    have hfind : ∃ st, (plan.subtasks.find? fun st => st.id = sid) = some st := by
      obtain ⟨st, hm, hid⟩ := List.mem_map.1 (h sid List.mem_cons_self)
      have : (plan.subtasks.find? fun st => st.id = sid).isSome = true :=
        List.find?_isSome.2 ⟨st, hm, by simpa using hid⟩
      exact Option.isSome_iff_exists.1 this
    obtain ⟨st, hst⟩ := hfind
    obtain ⟨b, hb⟩ : ∃ b, runSpecialist (result sid) (sendPayload plan s sid) = .ok b := by
      unfold runSpecialist
      rw [show (sendPayload plan s sid).plan = plan from rfl, show (sendPayload plan s sid).subtaskId = sid from rfl,
        hst]
      exact ⟨_, rfl⟩
    refine ⟨b :: rest, ?_⟩
    unfold runBatch at hrest ⊢
    rw [List.map_cons, List.mapM_cons, bind_eq_ok_iff]
    refine ⟨b, hb, ?_⟩
    rw [hrest]
    rfl

/-! ### The routers after planning and after a review -/

theorem routeAfterPlan_eq {cfg : Settings} {s : OrchestratorState} {plan : ExecutionPlan} {n : Next}
    (hp : s.plan = some plan) (hn : routeAfterPlan cfg s = .ok n) :
    n = .node (if needsApproval cfg s plan then .humanEscalation else .routeBatch) := by
  unfold routeAfterPlan at hn
  obtain ⟨plan', hp', hn⟩ := bind_eq_ok_iff.1 hn
  obtain rfl := Option.some.inj (hp.symm.trans (require_eq_ok.1 hp'))
  exact (Except.ok.inj hn).symm

/-- The four answers of the router after a review. -/
inductive Reviewed (cfg : Settings) (s : OrchestratorState) (r : ReviewResult) : Next → Prop
  | escalate (h : r.requiresHumanReview = true ∨ r.approved = false ∧ cfg.maxReviewCycles ≤ (s.reviewCycles : Int)) :
      Reviewed cfg s r (.node .humanEscalation)
  | notify (hh : r.requiresHumanReview = false) (ha : r.approved = true)
      (hs : r.score.1 < cfg.reviewScoreThreshold) : Reviewed cfg s r (.node .notifyHuman)
  | accept (hh : r.requiresHumanReview = false) (ha : r.approved = true)
      (hs : ¬ r.score.1 < cfg.reviewScoreThreshold) : Reviewed cfg s r (.node .synthesize)
  | redo (hh : r.requiresHumanReview = false) (ha : r.approved = false)
      (hc : ¬ cfg.maxReviewCycles ≤ (s.reviewCycles : Int)) : Reviewed cfg s r (.node .applyReviewFeedback)

theorem reviewed_of_route {cfg : Settings} {s : OrchestratorState} {r : ReviewResult} {n : Next}
    (hr : s.review = some r) (hn : routeAfterReview cfg s = .ok n) : Reviewed cfg s r n := by
  unfold routeAfterReview at hn
  obtain ⟨r', hr', hn⟩ := bind_eq_ok_iff.1 hn
  obtain rfl := Option.some.inj (hr.symm.trans (require_eq_ok.1 hr'))
  split at hn
  · rename_i hh
    obtain rfl := Except.ok.inj hn
    exact .escalate (Or.inl hh)
  · rename_i hh
    have hh' : r.requiresHumanReview = false := by simpa using hh
    split at hn
    · rename_i ha
      obtain rfl := Except.ok.inj hn
      split
      · rename_i hs
        exact .notify hh' ha hs
      · rename_i hs
        exact .accept hh' ha hs
    · rename_i ha
      have ha' : r.approved = false := by simpa using ha
      split at hn
      · rename_i hc
        obtain rfl := Except.ok.inj hn
        exact .escalate (Or.inr ⟨ha', hc⟩)
      · rename_i hc
        obtain rfl := Except.ok.inj hn
        exact .redo hh' ha' hc

/-! ### Classification of an escalation -/

/-- The four cases of `human_escalation`: the level, the source and the stuck ids. -/
inductive Classified (cfg : Settings) (s : OrchestratorState) : EscalationLevel → EscalationSource → List String → Prop
  | plan {source : EscalationSource} (hc : s.completed = ∅) (hr : s.review = none) (hs : source ∈ planSources) :
      Classified cfg s .approvePlan source []
  | sensitive {r : ReviewResult} (hr : s.review = some r) (h : r.requiresHumanReview = true) :
      Classified cfg s .approveAction .reviewSensitive []
  | exhausted {r : ReviewResult} (hr : s.review = some r) (h : r.requiresHumanReview = false) :
      Classified cfg s .takeOver .reviewExhausted []
  | retry (hc : s.completed ≠ ∅) (hr : s.review = none) :
      Classified cfg s .takeOver .specialistRetry (stuckIds cfg s)

private theorem classified_of_classify {cfg : Settings} {s : OrchestratorState} {level : EscalationLevel}
    {reason : String} {source : EscalationSource} {stuck : List String}
    (h : classify cfg s = .ok (level, reason, source, stuck)) : Classified cfg s level source stuck := by
  unfold classify at h
  split at h
  · rename_i hempty
    rw [Bool.and_eq_true, Option.isNone_iff_eq_none] at hempty
    have hc := Dict.eq_empty_of_isEmpty hempty.1
    obtain ⟨plan, -, h⟩ := bind_eq_ok_iff.1 h
    split at h
    · obtain ⟨rfl, -, rfl, rfl⟩ : EscalationLevel.approvePlan = level ∧ _ = reason ∧ _ = source ∧ [] = stuck := by
        simpa [pure, Except.pure] using h
      exact .plan hc hempty.2 (by simp [planSources])
    · split at h
      · obtain ⟨rfl, -, rfl, rfl⟩ : EscalationLevel.approvePlan = level ∧ _ = reason ∧ _ = source ∧ [] = stuck := by
          simpa [pure, Except.pure] using h
        exact .plan hc hempty.2 (by simp [planSources])
      · obtain ⟨rfl, -, rfl, rfl⟩ : EscalationLevel.approvePlan = level ∧ _ = reason ∧ _ = source ∧ [] = stuck := by
          simpa [pure, Except.pure] using h
        exact .plan hc hempty.2 (by simp [planSources])
  · rename_i hempty
    split at h
    · rename_i r hr
      split at h
      · rename_i hreq
        obtain ⟨rfl, -, rfl, rfl⟩ : EscalationLevel.approveAction = level ∧ _ = reason ∧ _ = source ∧ [] = stuck := by
          simpa [pure, Except.pure] using h
        exact .sensitive hr hreq
      · rename_i hreq
        obtain ⟨rfl, -, rfl, rfl⟩ : EscalationLevel.takeOver = level ∧ _ = reason ∧ _ = source ∧ [] = stuck := by
          simpa [pure, Except.pure] using h
        exact .exhausted hr (by simpa using hreq)
    · rename_i hr
      obtain ⟨rfl, -, rfl, rfl⟩ :
          EscalationLevel.takeOver = level ∧ _ = reason ∧ _ = source ∧ stuckIds cfg s = stuck := by
        simpa [pure, Except.pure] using h
      refine .retry (fun hc => hempty ?_) hr
      rw [hc, hr]
      rfl

/-- Whatever `human_escalation` packages is one of the four cases. -/
theorem classified_of_escalate {cfg : Settings} {s : OrchestratorState} {escalation : EscalationRequest}
    {source : EscalationSource} (h : escalate cfg s = .ok (escalation, source)) :
    Classified cfg s escalation.level source (escalation.context.stuckSubtaskIds.getD []) := by
  unfold escalate at h
  obtain ⟨⟨level, reason, source', stuck⟩, hc, h⟩ := bind_eq_ok_iff.1 h
  obtain ⟨rfl, rfl⟩ := Prod.mk.inj (Except.ok.inj h)
  exact classified_of_classify hc

theorem plan_of_escalate {cfg : Settings} {s : OrchestratorState} {escalation : EscalationRequest}
    {source : EscalationSource} (h : escalate cfg s = .ok (escalation, source)) : escalation.context.plan = s.plan := by
  unfold escalate at h
  obtain ⟨⟨level, reason, source', stuck⟩, -, h⟩ := bind_eq_ok_iff.1 h
  obtain ⟨rfl, rfl⟩ := Prod.mk.inj (Except.ok.inj h)
  rfl

/-- With a plan there is always something to package. -/
theorem exists_escalate {cfg : Settings} {s : OrchestratorState} {plan : ExecutionPlan} (hp : s.plan = some plan) :
    ∃ escalation source, escalate cfg s = .ok (escalation, source) := by
  have hc : ∃ x, classify cfg s = .ok x := by
    unfold classify
    split
    · rw [hp]
      simp only [require, bind, Except.bind, pure, Except.pure]
      split
      · exact ⟨_, rfl⟩
      · split
        · exact ⟨_, rfl⟩
        · exact ⟨_, rfl⟩
    · split
      · split
        · exact ⟨_, rfl⟩
        · exact ⟨_, rfl⟩
      · exact ⟨_, rfl⟩
  obtain ⟨⟨level, reason, source, stuck⟩, hc⟩ := hc
  unfold escalate
  rw [hc]
  exact ⟨_, _, rfl⟩

theorem mem_stuckIds {cfg : Settings} {s : OrchestratorState} {sid : String} :
    sid ∈ stuckIds cfg s ↔ ∃ n result, s.retryCounts.get? sid = some n ∧ cfg.maxSpecialistRetries ≤ (n : Int) ∧
      s.completed.get? sid = some result ∧ result.success = false := by
  unfold stuckIds
  simp only [List.mem_map, List.mem_filter, Bool.and_eq_true, decide_eq_true_eq, Prod.exists, exists_and_right,
    exists_eq_right, Dict.mem_items_iff]
  constructor
  · rintro ⟨n, hn, hmax, hres⟩
    split at hres
    · rename_i result hr
      exact ⟨n, result, hn, hmax, hr, by simpa using hres⟩
    · exact absurd hres (by simp)
  · rintro ⟨n, result, hn, hmax, hr, hs⟩
    refine ⟨n, hn, hmax, ?_⟩
    rw [hr]
    simpa using hs

/-! ### The decision of a human -/

/-- The nine cases of `apply_human_decision` and the router after it: what is written and what runs next. -/
inductive Decided (s : OrchestratorState) (source : EscalationSource) (decision : HumanDecision) (stuck : List String) :
    Update → Next → Prop
  | reject (ha : decision.action = .reject) : Decided s source decision stuck {} (.node .rejectTask)
  | takeOver (ha : decision.action = .takeOver) (hs : source ≠ .specialistRetry) :
      Decided s source decision stuck { finalOutput := some (decision.output.getD "") } (.node .deliver)
  | supply (ha : decision.action = .takeOver) (hs : source = .specialistRetry)
      {completed : Dict String (Option SubtaskResult)}
      (hin : ∀ sid ∈ stuck, ∃ result, completed.get? sid = some (some result) ∧ result.success = true ∧
        result.output = some (decision.output.getD ""))
      (hout : ∀ sid, sid ∉ stuck → completed.get? sid = none) :
      Decided s source decision stuck { completed := completed } (.node .routeBatch)
  | replan (ha : decision.action = .modify) (hs : source ∈ planSources) :
      Decided s source decision stuck
        { memoryContext := some (addGuidance (s.memoryContext.getD "") (decision.feedback.getD "")) } (.node .planTask)
  | guide (ha : decision.action = .modify) (hs : source = .specialistRetry) :
      Decided s source decision stuck
        { subtaskFeedback := Dict.ofKeys stuck fun _ => some (decision.feedback.getD "")
          completed := Dict.ofKeys stuck fun _ => none
          retryCounts := Dict.ofKeys stuck fun _ => some 0 } (.node .routeBatch)
  | redo (ha : decision.action = .modify) (hs : source ∉ planSources) (hs' : source ≠ .specialistRetry)
      {r : ReviewResult} {plan : ExecutionPlan} (hr : s.review = some r) (hp : s.plan = some plan) :
      Decided s source decision stuck
        { subtaskFeedback := Dict.ofKeys (redoIds r plan) fun _ => some (decision.feedback.getD "")
          completed := Dict.ofKeys (redoIds r plan) fun _ => none } (.node .applyReviewFeedback)
  | resume (ha : decision.action = .approve) (hs : source ∈ planSources) :
      Decided s source decision stuck {} (.node .routeBatch)
  | retry (ha : decision.action = .approve) (hs : source = .specialistRetry) :
      Decided s source decision stuck
        { completed := Dict.ofKeys stuck fun _ => none
          retryCounts := Dict.ofKeys stuck fun _ => some 0 } (.node .routeBatch)
  | accept (ha : decision.action = .approve) (hs : source ∉ planSources) (hs' : source ≠ .specialistRetry) :
      Decided s source decision stuck {} (.node .synthesize)

private theorem get?_takeOver {plan : ExecutionPlan} {decision : HumanDecision} {stuck : List String}
    {results : List (String × Option SubtaskResult)} (h : stuck.mapM (takeOverResult plan decision) = .ok results) :
    (∀ sid ∈ stuck, ∃ result, (Dict.ofList results).get? sid = some (some result) ∧ result.success = true ∧
      result.output = some (decision.output.getD "")) ∧
    (∀ sid, sid ∉ stuck → (Dict.ofList results).get? sid = none) := by
  have hf := mapM_eq_ok_iff.1 h
  have hkeys : results.map Prod.fst = stuck := by
    clear h
    induction hf with
    | nil => rfl
    | cons hb _ ih =>
      obtain ⟨subtask, -, hb⟩ := bind_eq_ok_iff.1 hb
      obtain rfl := Except.ok.inj hb
      rw [List.map_cons, ih]
  have hval : ∀ e ∈ results, ∃ result, e.2 = some result ∧ result.success = true ∧
      result.output = some (decision.output.getD "") := by
    clear h hkeys
    induction hf with
    | nil => simp
    | cons hb _ ih =>
      obtain ⟨subtask, -, hb⟩ := bind_eq_ok_iff.1 hb
      obtain rfl := Except.ok.inj hb
      intro e he
      rcases List.mem_cons.1 he with rfl | he
      · exact ⟨_, rfl, rfl, rfl⟩
      · exact ih e he
  constructor
  · intro sid hs
    obtain ⟨v, hv⟩ := Dict.exists_get?_ofList (l := results) (by rw [hkeys]; exact hs)
    obtain ⟨result, rfl, hr⟩ := hval _ (Dict.mem_of_get?_ofList hv)
    exact ⟨result, hv, hr⟩
  · intro sid hs
    rw [Option.eq_none_iff_forall_ne_some]
    intro v hv
    rw [← hkeys] at hs
    exact hs (List.mem_map.2 ⟨_, Dict.mem_of_get?_ofList hv, rfl⟩)

/-- The router after a decision reads only what the escalation stored. -/
private theorem routeAfterDecision_apply {s : OrchestratorState} {decision : HumanDecision}
    {source : EscalationSource} {u : Update} {n : Next} (hd : s.humanDecision = some decision)
    (hs : s.escalationSource = some source) (hud : u.humanDecision = none) (hus : u.escalationSource = none)
    (hn : routeAfterDecision (s.apply u) = .ok n) :
    (match decision.action with
      | .reject => Next.node .rejectTask
      | .takeOver => .node (if source = .specialistRetry then .routeBatch else .deliver)
      | .modify =>
        if source ∈ planSources then .node .planTask
        else if source = .specialistRetry then .node .routeBatch else .node .applyReviewFeedback
      | .approve =>
        if source ∈ planSources ∨ source = .specialistRetry then .node .routeBatch else .node .synthesize) = n := by
  have hd' : (s.apply u).humanDecision = some decision := by simp [hud, hd]
  have hs' : (s.apply u).escalationSource = some source := by simp [hus, hs]
  unfold routeAfterDecision at hn
  rw [hd', hs'] at hn
  simp only [require, bind, Except.bind, pure, Except.pure] at hn
  apply Except.ok.inj
  rw [← hn]
  rcases decision.action with _ | _ | _ | _
  all_goals dsimp only
  · split <;> rfl
  · split
    · rfl
    · split <;> rfl

/-- Applying a decision and routing on is one of the nine cases. -/
theorem decided_of_apply {s : OrchestratorState} {decision : HumanDecision} {source : EscalationSource}
    {escalation : EscalationRequest} {u : Update} {n : Next} (hd : s.humanDecision = some decision)
    (hs : s.escalationSource = some source) (he : s.escalation = some escalation) (hu : applyHumanDecision s = .ok u)
    (hn : routeAfterDecision (s.apply u) = .ok n) :
    Decided s source decision (escalation.context.stuckSubtaskIds.getD []) u n := by
  unfold applyHumanDecision at hu
  obtain ⟨decision', hd', hu⟩ := bind_eq_ok_iff.1 hu
  obtain rfl := Option.some.inj (hd.symm.trans (require_eq_ok.1 hd'))
  obtain ⟨source', hs', hu⟩ := bind_eq_ok_iff.1 hu
  obtain rfl := Option.some.inj (hs.symm.trans (require_eq_ok.1 hs'))
  obtain ⟨escalation', he', hu⟩ := bind_eq_ok_iff.1 hu
  obtain rfl := Option.some.inj (he.symm.trans (require_eq_ok.1 he'))
  dsimp only at hu
  rcases ha : decision.action with _ | _ | _ | _
  all_goals rw [ha] at hu; dsimp only at hu
  · -- approve
    split at hu
    all_goals
      rename_i hsrc
      obtain rfl := Except.ok.inj hu
      obtain rfl := routeAfterDecision_apply hd hs rfl rfl hn
      rw [ha]
      dsimp only
    · rw [if_pos (Or.inr hsrc)]
      exact .retry ha hsrc
    · by_cases hplan : source ∈ planSources
      · rw [if_pos (Or.inl hplan)]
        exact .resume ha hplan
      · rw [if_neg (by simp [hplan, hsrc])]
        exact .accept ha hplan hsrc
  · -- reject
    obtain rfl := Except.ok.inj hu
    obtain rfl := routeAfterDecision_apply hd hs rfl rfl hn
    rw [ha]
    exact .reject ha
  · -- modify
    split at hu
    · rename_i hplan
      obtain rfl := Except.ok.inj hu
      obtain rfl := routeAfterDecision_apply hd hs rfl rfl hn
      rw [ha]
      dsimp only
      rw [if_pos hplan]
      exact .replan ha hplan
    · rename_i hplan
      split at hu
      · rename_i hsrc
        obtain rfl := Except.ok.inj hu
        obtain rfl := routeAfterDecision_apply hd hs rfl rfl hn
        rw [ha]
        dsimp only
        rw [if_neg hplan, if_pos hsrc]
        exact .guide ha hsrc
      · rename_i hsrc
        obtain ⟨r, hr, hu⟩ := bind_eq_ok_iff.1 hu
        obtain ⟨plan, hp, hu⟩ := bind_eq_ok_iff.1 hu
        obtain rfl := Except.ok.inj hu
        obtain rfl := routeAfterDecision_apply hd hs rfl rfl hn
        rw [ha]
        dsimp only
        rw [if_neg hplan, if_neg hsrc]
        exact .redo ha hplan hsrc (require_eq_ok.1 hr) (require_eq_ok.1 hp)
  · -- take over
    split at hu
    · rename_i hsrc
      obtain ⟨plan, -, hu⟩ := bind_eq_ok_iff.1 hu
      obtain ⟨results, hm, hu⟩ := bind_eq_ok_iff.1 hu
      obtain rfl := Except.ok.inj hu
      obtain rfl := routeAfterDecision_apply hd hs rfl rfl hn
      obtain ⟨hin, hout⟩ := get?_takeOver hm
      rw [ha]
      dsimp only
      rw [if_pos hsrc]
      exact .supply ha hsrc hin hout
    · rename_i hsrc
      obtain rfl := Except.ok.inj hu
      obtain rfl := routeAfterDecision_apply hd hs rfl rfl hn
      rw [ha]
      dsimp only
      rw [if_neg hsrc]
      exact .takeOver ha hsrc

/-- What becomes of a MODIFY, by its source. -/
theorem Decided.of_modify {s : OrchestratorState} {source : EscalationSource} {decision : HumanDecision}
    {stuck : List String} {u : Update} {n : Next} (h : Decided s source decision stuck u n)
    (ha : decision.action = .modify) :
    (source ∈ planSources ∧ n = .node .planTask ∧
        u = { memoryContext := some (addGuidance (s.memoryContext.getD "") (decision.feedback.getD "")) }) ∨
      (source = .specialistRetry ∧ n = .node .routeBatch ∧
        u = {
          subtaskFeedback := Dict.ofKeys stuck fun _ => some (decision.feedback.getD "")
          completed := Dict.ofKeys stuck fun _ => none
          retryCounts := Dict.ofKeys stuck fun _ => some 0 }) ∨
      (source ∉ planSources ∧ source ≠ .specialistRetry ∧ n = .node .applyReviewFeedback ∧
        ∃ r plan, s.review = some r ∧ s.plan = some plan ∧
          u = {
            subtaskFeedback := Dict.ofKeys (redoIds r plan) fun _ => some (decision.feedback.getD "")
            completed := Dict.ofKeys (redoIds r plan) fun _ => none }) := by
  cases h with
  | replan _ hs => exact Or.inl ⟨hs, rfl, rfl⟩
  | guide _ hs => exact Or.inr (Or.inl ⟨hs, rfl, rfl⟩)
  | redo _ hs hs' hr hp => exact Or.inr (Or.inr ⟨hs, hs', rfl, _, _, hr, hp, rfl⟩)
  | reject h => exact absurd (ha.symm.trans h) (by decide)
  | takeOver h _ => exact absurd (ha.symm.trans h) (by decide)
  | supply h _ _ _ => exact absurd (ha.symm.trans h) (by decide)
  | resume h _ => exact absurd (ha.symm.trans h) (by decide)
  | retry h _ => exact absurd (ha.symm.trans h) (by decide)
  | accept h _ _ => exact absurd (ha.symm.trans h) (by decide)

/-- What becomes of an APPROVE, by its source. -/
theorem Decided.of_approve {s : OrchestratorState} {source : EscalationSource} {decision : HumanDecision}
    {stuck : List String} {u : Update} {n : Next} (h : Decided s source decision stuck u n)
    (ha : decision.action = .approve) :
    (source ∈ planSources ∧ n = .node .routeBatch ∧ u = {}) ∨
      (source = .specialistRetry ∧ n = .node .routeBatch ∧
        u = {
          completed := Dict.ofKeys stuck fun _ => none
          retryCounts := Dict.ofKeys stuck fun _ => some 0 }) ∨
      (source ∉ planSources ∧ source ≠ .specialistRetry ∧ n = .node .synthesize ∧ u = {}) := by
  cases h with
  | resume _ hs => exact Or.inl ⟨hs, rfl, rfl⟩
  | retry _ hs => exact Or.inr (Or.inl ⟨hs, rfl, rfl⟩)
  | accept _ hs hs' => exact Or.inr (Or.inr ⟨hs, hs', rfl, rfl⟩)
  | reject h => exact absurd (ha.symm.trans h) (by decide)
  | takeOver h _ => exact absurd (ha.symm.trans h) (by decide)
  | supply h _ _ _ => exact absurd (ha.symm.trans h) (by decide)
  | replan h _ => exact absurd (ha.symm.trans h) (by decide)
  | guide h _ => exact absurd (ha.symm.trans h) (by decide)
  | redo h _ _ _ _ => exact absurd (ha.symm.trans h) (by decide)

/-- What becomes of a TAKE_OVER, by its source. -/
theorem Decided.of_takeOver {s : OrchestratorState} {source : EscalationSource} {decision : HumanDecision}
    {stuck : List String} {u : Update} {n : Next} (h : Decided s source decision stuck u n)
    (ha : decision.action = .takeOver) :
    (source ≠ .specialistRetry ∧ n = .node .deliver ∧ u = { finalOutput := some (decision.output.getD "") }) ∨
      (source = .specialistRetry ∧ n = .node .routeBatch ∧ ∀ sid ∈ stuck, ∃ result,
        u.completed.get? sid = some (some result) ∧ result.success = true ∧
          result.output = some (decision.output.getD "")) := by
  cases h with
  | takeOver _ hs => exact Or.inl ⟨hs, rfl, rfl⟩
  | supply _ hs hin _ => exact Or.inr ⟨hs, rfl, hin⟩
  | reject h => exact absurd (ha.symm.trans h) (by decide)
  | replan h _ => exact absurd (ha.symm.trans h) (by decide)
  | guide h _ => exact absurd (ha.symm.trans h) (by decide)
  | redo h _ _ _ _ => exact absurd (ha.symm.trans h) (by decide)
  | resume h _ => exact absurd (ha.symm.trans h) (by decide)
  | retry h _ => exact absurd (ha.symm.trans h) (by decide)
  | accept h _ _ => exact absurd (ha.symm.trans h) (by decide)

/-! ### What the plain nodes write -/

theorem update_of_deliver {memory : Option (String × ℚ × ExtractedMemory)} {s : OrchestratorState}
    {record : Option MemoryRecord} {u : Update} (h : deliver memory s = .ok (record, u)) :
    u = { status := some .completed } := by
  unfold deliver at h
  split at h
  · exact (Prod.mk.inj (Except.ok.inj h)).2.symm
  · obtain ⟨plan, -, h⟩ := bind_eq_ok_iff.1 h
    exact (Prod.mk.inj (Except.ok.inj h)).2.symm

theorem update_of_notifyHuman {cfg : Settings} {s : OrchestratorState} {u : Update} (h : notifyHuman cfg s = .ok u) :
    ∃ escalation, u = {
      escalation := some escalation
      escalationSource := some .reviewLowScoreNotify } := by
  obtain ⟨r, -, h⟩ := bind_eq_ok_iff.1 h
  exact ⟨_, (Except.ok.inj h).symm⟩

theorem update_of_applyReviewFeedback {s : OrchestratorState} {u : Update} (h : applyReviewFeedback s = .ok u) :
    ∃ r, s.review = some r ∧ u = {
      completed := Dict.ofKeys r.subtasksToRedo fun _ => none
      subtaskFeedback := Dict.ofKeys r.subtasksToRedo fun _ => some r.feedback } := by
  obtain ⟨r, hr, h⟩ := bind_eq_ok_iff.1 h
  exact ⟨r, require_eq_ok.1 hr, (Except.ok.inj h).symm⟩

end AgentOrchestrator
