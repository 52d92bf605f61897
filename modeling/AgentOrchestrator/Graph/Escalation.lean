import AgentOrchestrator.Graph.Invariant

/-!
# Escalations and their triggers

`human_escalation` works the trigger out again from the state.  `MatchesTrigger` is the trigger table: what the level,
the source and the stuck ids have to be, by the router that sent the run there.  Before the first review the two
agree, and so they do for an escalation out of a review; a subtask that gets stuck after a review is taken for a
rejected review (`matchesTrigger_iff`).  An APPROVE of such an escalation goes to `synthesize`, and this is the only way
there with an unfinished plan (`complete_of_guarded`).
-/

namespace AgentOrchestrator

/-- The trigger table, for the escalation packaged in `s` after the router of the node in `e`. -/
def MatchesTrigger (cfg : Settings) (s : OrchestratorState) (e : Event) : Prop :=
  match e with
  | .planTask _ _ _ => ∃ escalation source, escalate cfg s = .ok (escalation, source) ∧
      escalation.level = .approvePlan ∧ source ∈ planSources
  | .routeBatch => stuckOf cfg s ≠ [] → ∃ escalation source, escalate cfg s = .ok (escalation, source) ∧
      escalation.level = .takeOver ∧ source = .specialistRetry ∧
      ∀ sid, sid ∈ escalation.context.stuckSubtaskIds.getD [] ↔ sid ∈ stuckOf cfg s
  | .review _ result => ∃ escalation source, escalate cfg s = .ok (escalation, source) ∧
      if result.requiresHumanReview then escalation.level = .approveAction ∧ source = .reviewSensitive
      else escalation.level = .takeOver ∧ source = .reviewExhausted
  | _ => True

/-- Every subtask of the plan has a successful result. -/
def Complete (s : OrchestratorState) : Prop := ∃ plan, s.plan = some plan ∧ AllDone plan s.completed

/-! ### Classification, by what is in the state -/

theorem Classified.of_pristine {cfg : Settings} {s : OrchestratorState} {level : EscalationLevel}
    {source : EscalationSource} {stuck : List String} (hc : Classified cfg s level source stuck) (hp : Pristine s) :
    level = .approvePlan ∧ source ∈ planSources := by
  cases hc with
  | plan _ _ hs => exact ⟨rfl, hs⟩
  | sensitive hr _ => exact absurd (hp.review.symm.trans hr) (by simp)
  | exhausted hr _ => exact absurd (hp.review.symm.trans hr) (by simp)
  | retry hne _ => exact absurd hp.completed hne

theorem Classified.of_work {cfg : Settings} {s : OrchestratorState} {level : EscalationLevel}
    {source : EscalationSource} {stuck : List String} (hc : Classified cfg s level source stuck)
    (hne : s.completed ≠ ∅) (hnone : s.review = none) :
    level = .takeOver ∧ source = .specialistRetry ∧ stuck = stuckIds cfg s := by
  cases hc with
  | plan he _ _ => exact absurd he hne
  | sensitive hr _ => exact absurd (hnone.symm.trans hr) (by simp)
  | exhausted hr _ => exact absurd (hnone.symm.trans hr) (by simp)
  | retry _ _ => exact ⟨rfl, rfl, rfl⟩

theorem Classified.of_reviewed {cfg : Settings} {s : OrchestratorState} {level : EscalationLevel}
    {source : EscalationSource} {stuck : List String} (hc : Classified cfg s level source stuck) {r : ReviewResult}
    (hr : s.review = some r) :
    if r.requiresHumanReview then level = .approveAction ∧ source = .reviewSensitive
    else level = .takeOver ∧ source = .reviewExhausted := by
  cases hc with
  | plan _ hnone _ => exact absurd (hnone.symm.trans hr) (by simp)
  | sensitive hr' h =>
    obtain rfl := Option.some.inj (hr.symm.trans hr')
    rw [if_pos h]
    exact ⟨rfl, rfl⟩
  | exhausted hr' h =>
    obtain rfl := Option.some.inj (hr.symm.trans hr')
    rw [if_neg (by simp [h])]
    exact ⟨rfl, rfl⟩
  | retry _ hnone => exact absurd (hnone.symm.trans hr) (by simp)

theorem completed_ne_empty_of_stuck {cfg : Settings} {s : OrchestratorState} (h : stuckOf cfg s ≠ []) :
    s.completed ≠ ∅ := by
  intro hc
  unfold stuckOf at h
  rw [hc] at h
  split at h
  · exact h scan_stuck_of_empty
  · exact h rfl

/-- A stuck subtask is recognised exactly when nothing has been reviewed yet. -/
theorem matches_routeBatch_iff {cfg : Settings} {plan : ExecutionPlan} {s : OrchestratorState} (h : Sound plan s) :
    MatchesTrigger cfg s .routeBatch ↔ (stuckOf cfg s ≠ [] → s.review = none) := by
  have hiff : ∀ sid, sid ∈ stuckIds cfg s ↔ sid ∈ stuckOf cfg s := by
    intro sid
    rw [stuckOf_eq h.plan_eq]
    exact h.mem_stuckIds_iff
  constructor
  · intro hm hst
    obtain ⟨escalation, source, he, -, hs, -⟩ := hm hst
    exact ((classified_of_escalate he).of_retry hs).1
  · intro hnone hst
    obtain ⟨escalation, source, he⟩ := @exists_escalate cfg s plan h.plan_eq
    obtain ⟨hl, hs, hids⟩ := (classified_of_escalate he).of_work (completed_ne_empty_of_stuck hst) (hnone hst)
    refine ⟨escalation, source, he, hl, hs, ?_⟩
    rw [hids]
    exact hiff

/-- Storing a reply and routing on leads to `human_escalation` with the trigger recognised, except for a subtask that
gets stuck after a review. -/
theorem matchesTrigger_iff {cfg : Settings} {s : OrchestratorState} {tr : List Event} {c c' : Config} {e : Event}
    (h0 : Fresh s) (hr : Exec (Step cfg) (start s) tr c) (hs : Step cfg c e c')
    (hn : c'.next = .node .humanEscalation) :
    MatchesTrigger cfg c'.state e ↔
      ¬ (c.next = .node .routeBatch ∧ stuckOf cfg c.state ≠ [] ∧ c.state.review ≠ none) := by
  have hat := at_of_exec h0 hr
  have hother : ∀ n : Node, n ≠ .routeBatch → c.next = .node n →
      ¬ (c.next = .node .routeBatch ∧ stuckOf cfg c.state ≠ [] ∧ c.state.review ≠ none) := by
    rintro n hne hcn ⟨hcn', -⟩
    exact hne (Next.node.inj (hcn.symm.trans hcn'))
  cases hs.fires with
  | planTask plan _ =>
    refine iff_of_true ?_ (hother .planTask (by decide) rfl)
    cases hat with
    | planTask hp =>
      obtain ⟨hp', hsound⟩ := hp.planTask plan
      obtain ⟨escalation, source, he⟩ := @exists_escalate cfg _ plan hsound.plan_eq
      exact ⟨escalation, source, he, (classified_of_escalate he).of_pristine hp'⟩
  | routeBatch _ =>
    cases hat with
    | routeBatch hsound =>
      rw [matches_routeBatch_iff hsound]
      simp only [true_and, not_and, not_not]
  | review result _ =>
    refine iff_of_true ?_ (hother .review (by decide) rfl)
    cases hat with
    | review hsound hd =>
      have hsound' := hsound.review hd result
      obtain ⟨escalation, source, he⟩ := @exists_escalate cfg _ _ hsound'.plan_eq
      exact ⟨escalation, source, he, (classified_of_escalate he).of_reviewed rfl⟩
  | intake uuid memories => exact absurd hn (by simp)
  | specialists result _ => exact absurd hn (by simp)
  | applyReviewFeedback _ => exact absurd hn (by simp)
  | notifyHuman _ => exact absurd hn (by simp)
  | synthesize text => exact absurd hn (by simp)
  | deliver memory _ => exact absurd hn (by simp)
  | rejectTask => exact absurd hn (by simp)
  | humanEscalation decision _ => exact absurd hn (by simp)
  | applyHumanDecision _ _ _ _ => exact iff_of_true trivial (hother .applyHumanDecision (by decide) rfl)

/-- A sensitive subtask at planning time is classified by the table. -/
theorem sensitive_plan_matches :
    MatchesTrigger Settings.default sensitivePlanned (.planTask "Report" "" sensitivePlan) :=
  (matchesTrigger_iff fresh_sampleStart (.single step_intake_sample) step_sensitivePlan rfl).2
    fun h => absurd h.1 (by simp)

/-- A plan of one subtask that passes a first review badly and then fails until its retries are used up. -/
def redoneThenStuck : List Reply :=
  [.intake "t" none, .plan (samplePlan [sampleSubtask "a" []]), .none, .results (sampleResult true), .none,
    .review (sampleReview false ["a"]), .none, .none, .results (sampleResult false), .none,
    .results (sampleResult false)]

/-- What is packaged at the end of `redoneThenStuck`. -/
private def reportedAsReview (c : Config) : Bool :=
  decide (c.next = .node .routeBatch) && decide (stuckOf Settings.default c.state = ["a"]) &&
    match decideNextBatch Settings.default c.state, escalate Settings.default c.state with
    | .ok n, .ok (escalation, source) =>
      decide (n = .node .humanEscalation) && decide (source = .reviewExhausted) &&
        decide (escalation.context.stuckSubtaskIds = some [])
    | _, _ => false

/-- A subtask that gets stuck after a review is reported as a review that used up its cycles. -/
theorem stuck_taken_for_review : ∃ tr c c', Exec (Step Settings.default) (start sampleStart) tr c ∧
    Step Settings.default c .routeBatch c' ∧ c'.next = .node .humanEscalation ∧
    stuckOf Settings.default c'.state = ["a"] ∧
    (∃ escalation, escalate Settings.default c'.state = .ok (escalation, .reviewExhausted) ∧
      escalation.context.stuckSubtaskIds = some []) ∧
    ¬ MatchesTrigger Settings.default c'.state .routeBatch := by
  have hscript : scriptEnds (step Settings.default) (start sampleStart) redoneThenStuck
      (fun _ c => reportedAsReview c) = true := by decide +kernel
  obtain ⟨tr, ⟨s, next⟩, hr, hp⟩ := exec_of_scriptEnds hscript
  unfold reportedAsReview at hp
  simp only [Bool.and_eq_true, decide_eq_true_eq] at hp
  obtain ⟨⟨rfl, hst⟩, hp⟩ := hp
  split at hp
  · rename_i n escalation source hn he
    simp only [Bool.and_eq_true, decide_eq_true_eq] at hp
    obtain ⟨⟨rfl, rfl⟩, hids⟩ := hp
    refine ⟨tr, _, _, hr, (Fires.routeBatch hn).step, rfl, hst, ⟨escalation, he, hids⟩, ?_⟩
    intro hm
    obtain ⟨escalation', source', he', -, hs', -⟩ := hm (by rw [hst]; simp)
    rw [he] at he'
    obtain ⟨-, rfl⟩ := Prod.mk.inj (Except.ok.inj he')
    exact absurd hs' (by decide)
  · exact absurd hp (by simp)

/-! ### What an APPROVE lets through -/

/-- The step applies an APPROVE while a review is recorded and a subtask is stuck. -/
def ApprovesStuck (cfg : Settings) (c : Config) (e : Event) : Prop :=
  c.state.review ≠ none ∧ stuckOf cfg c.state ≠ [] ∧
    ∃ source decision update, e = .applyHumanDecision source decision update ∧ decision.action = .approve

theorem Sound.complete {plan : ExecutionPlan} {s : OrchestratorState} (h : Sound plan s)
    (hd : AllDone plan s.completed) : Complete s := ⟨plan, h.plan_eq, hd⟩

/-- Where an APPROVE leads while a review is recorded: on to `synthesize`. -/
private theorem approve_reviewed {s : OrchestratorState} {cfg : Settings} {level : EscalationLevel}
    {source : EscalationSource} {decision : HumanDecision} {stuck : List String} {u : Update} {n : Next}
    (hc : Classified cfg s level source stuck) (hd : Decided s source decision stuck u n)
    (ha : decision.action = .approve) (hr : s.review ≠ none) : u = {} ∧ n = .node .synthesize := by
  rcases hd.of_approve ha with ⟨hs, -, -⟩ | ⟨hs, -, -⟩ | ⟨-, -, rfl, rfl⟩
  · cases hc with
    | plan _ hnone _ => exact absurd hnone hr
    | sensitive _ _ => exact absurd hs (by decide)
    | exhausted _ _ => exact absurd hs (by decide)
    | retry _ hnone => exact absurd hnone hr
  · exact absurd (hc.of_retry hs).1 hr
  · exact ⟨rfl, rfl⟩

/-- Step lemma: without an APPROVE of a stuck subtask, `synthesize` is entered with a finished plan only. -/
theorem complete_step {cfg : Settings} {c c' : Config} {e : Event} (hat : At cfg c.state c.next)
    (hs : Step cfg c e c') (hg : ¬ ApprovesStuck cfg c e) (hn : c'.next = .node .synthesize) : Complete c'.state := by
  have hedge := hat.leadsTo hs.fires
  rw [hn] at hedge
  cases hs.fires with
  | review result hroute =>
    cases hat with
    | review hsound hd => exact (hsound.review hd result).complete hd
  | notifyHuman hu =>
    cases hat with
    | notifyHuman hsound _ hd =>
      obtain ⟨escalation, rfl⟩ := update_of_notifyHuman hu
      exact ⟨_, hsound.plan_eq, hd⟩
  | @applyHumanDecision s decision source u n hdec hsrc hu hroute =>
    obtain ⟨plan, escalation, hsound, ho, hp, hcase⟩ := hat.decided hdec hsrc hu hroute
    obtain rfl : n = .node .synthesize := hn
    cases hcase with
    | accept ha hplan hretry =>
      obtain ⟨r, hr⟩ := hp.classified.of_review hplan hretry
      refine ⟨plan, hsound.plan_eq, ?_⟩
      cases ho with
      | plan hpr _ => exact absurd (hpr.review.symm.trans hr) (by simp)
      | stuck hst =>
        refine absurd ⟨?_, ?_, source, decision, _, rfl, ha⟩ hg
        · rw [hr]
          simp
        · rwa [stuckOf_eq hsound.plan_eq]
      | blocked _ hb hd => exact absurd hb (hsound.not_blocked_of_review hr hd)
      | review _ hd _ => exact hd
  | _ => simp [Event.LeadsTo] at hedge

/-- Run lemma: along steps that approve no stuck subtask, every run that comes to `synthesize` has finished its plan. -/
theorem complete_of_guarded {cfg : Settings} {s : OrchestratorState} {tr : List Event} {c : Config} (h0 : Fresh s)
    (hr : Exec (fun c e c' => Step cfg c e c' ∧ ¬ ApprovesStuck cfg c e) (start s) tr c)
    (hn : c.next = .node .synthesize) : Complete c.state := by
  have hinv := hr.stateInvariant
    (fun c => At cfg c.state c.next ∧ (c.next = .node .synthesize → Complete c.state))
    ⟨at_start h0, fun h => absurd h (by simp [start])⟩
    fun _ _ _ hp hs => ⟨hp.1.step hs.1.fires, complete_step hp.1 hs.1 hs.2⟩
  exact hinv.2 hn

/-- An APPROVE of a stuck subtask after a review enters `synthesize` with an unfinished plan. -/
theorem incomplete_of_approvesStuck {cfg : Settings} {c c' : Config} {e : Event} (hat : At cfg c.state c.next)
    (hs : Step cfg c e c') (hbad : ApprovesStuck cfg c e) : c'.next = .node .synthesize ∧ ¬ Complete c'.state := by
  obtain ⟨hrev, hst, source, decision, update, rfl, ha⟩ := hbad
  cases hs.fires with
  | @applyHumanDecision s _ _ u n hdec hsrc hu hroute =>
    obtain ⟨plan, escalation, hsound, ho, hp, hcase⟩ := hat.decided hdec hsrc hu hroute
    obtain ⟨rfl, rfl⟩ := approve_reviewed hp.classified hcase ha hrev
    refine ⟨rfl, ?_⟩
    rintro ⟨plan', hplan', hd⟩
    obtain rfl := hsound.plan_unique hplan'
    rw [stuckOf_eq hsound.plan_eq] at hst
    exact hst (scan_stuck_of_allDone hd)

/-- No partial delivery, exactly: runs that approve no stuck subtask after a review synthesize finished plans only,
and a run that approves one goes on to synthesize an unfinished plan. -/
theorem synthesizes_complete_iff_guarded {cfg : Settings} {s : OrchestratorState} (h0 : Fresh s) :
    (∀ tr c, Exec (fun c e c' => Step cfg c e c' ∧ ¬ ApprovesStuck cfg c e) (start s) tr c →
      c.next = .node .synthesize → Complete c.state) ∧
    (∀ tr c e c', Exec (Step cfg) (start s) tr c → Step cfg c e c' → ApprovesStuck cfg c e →
      c'.next = .node .synthesize ∧ ¬ Complete c'.state) :=
  ⟨fun _ _ hr hn => complete_of_guarded h0 hr hn,
    fun _ _ _ _ hr hs hbad => incomplete_of_approvesStuck (at_of_exec h0 hr) hs hbad⟩

/-- A plan of two subtasks that is worked off and approved at once comes to `synthesize` complete. -/
theorem plain_run_complete : ∃ tr c, Exec (Step Settings.default) (start sampleStart) tr c ∧
    c.next = .node .synthesize ∧ c.state.completed.keys = ["a", "b"] ∧ Complete c.state := by
  have hscript : scriptEnds (step Settings.default) (start sampleStart)
      [.intake "t" none, .plan (samplePlan [sampleSubtask "a" [], sampleSubtask "b" ["a"]]), .none,
        .results (sampleResult true), .none, .results (sampleResult true), .none, .review (sampleReview true [])]
      (fun tr c => decide (c.next = .node .synthesize) && decide (c.state.completed.keys = ["a", "b"]) &&
        tr.all fun e => match e with
          | .applyHumanDecision _ _ _ => false
          | _ => true) = true := by decide +kernel
  obtain ⟨tr, c, hr, hp⟩ := exec_of_scriptEnds hscript
  simp only [Bool.and_eq_true, decide_eq_true_eq, List.all_eq_true] at hp
  obtain ⟨⟨hn, hk⟩, hall⟩ := hp
  refine ⟨tr, c, hr, hn, hk,
    (@synthesizes_complete_iff_guarded Settings.default _ fresh_sampleStart).1 tr c ?_ hn⟩
  refine (hr.restrict hall).mono fun c e c' hs => ⟨hs.1, ?_⟩
  rintro ⟨-, -, source, decision, update, rfl, -⟩
  exact absurd hs.2 (by simp)

/-- Approving the escalation at the end of `redoneThenStuck` synthesizes a plan whose only subtask failed. -/
theorem approve_synthesizes_failed : ∃ tr c c', Exec (Step Settings.default) (start sampleStart) tr c ∧
    Step Settings.default c (.synthesize c.state.completed "text") c' ∧ c'.next = .node .deliver ∧
    c.state.plan = some (samplePlan [sampleSubtask "a" []]) ∧ ¬ Complete c.state := by
  have hscript : scriptEnds (step Settings.default) (start sampleStart)
      (redoneThenStuck ++ [.none, .decision { action := .approve }, .none])
      (fun _ c => decide (c.next = .node .synthesize) &&
        decide (c.state.plan = some (samplePlan [sampleSubtask "a" []])) && !isDone c.state.completed "a") = true := by
    decide +kernel
  obtain ⟨tr, ⟨s, next⟩, hr, hp⟩ := exec_of_scriptEnds hscript
  simp only [Bool.and_eq_true, decide_eq_true_eq, Bool.not_eq_true'] at hp
  obtain ⟨⟨rfl, hplan⟩, hd⟩ := hp
  refine ⟨tr, _, _, hr, (Fires.synthesize "text").step, rfl, hplan, ?_⟩
  rintro ⟨plan, hplan', hall⟩
  obtain rfl := Option.some.inj (hplan.symm.trans hplan')
  have ha : isDone s.completed "a" = true := hall "a" (by simp [planIds, samplePlan, sampleSubtask])
  rw [hd] at ha
  exact absurd ha (by simp)

end AgentOrchestrator
