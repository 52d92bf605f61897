import AgentOrchestrator.Graph.Escalation

/-!
# What licenses work, and what licenses delivery

Two properties of the history of a run.

* Work on a plan that needs approval happens only after an APPROVE of that plan, given after the plan was made
  (`approved_of_specialists`).  The gate can be passed in the plan phase only, and `Origin.pristine` keeps the plan
  phase apart from the rest of the run.
* A delivery follows either a review that let the task through, with nothing changed since, or an APPROVE or TAKE_OVER
  that no review and no other decision has followed (`licensed_of_deliver`).
-/

namespace AgentOrchestrator

def IsPlanTask (e : Event) : Prop := ∃ task memoryContext plan, e = .planTask task memoryContext plan

def IsReview (e : Event) : Prop := ∃ completed result, e = .review completed result

def IsDecision (e : Event) : Prop := ∃ source escalation decision, e = .humanEscalation source escalation decision

/-- `human_escalation` was resumed with an APPROVE of `plan`, and with a plan source. -/
def ApprovesPlan (plan : ExecutionPlan) (e : Event) : Prop :=
  ∃ source escalation decision, e = .humanEscalation source escalation decision ∧ source ∈ planSources ∧
    decision.action = .approve ∧ escalation.context.plan = some plan

/-- The plan in force was made by the last execution of `plan_task`. -/
def Created (plan : ExecutionPlan) (tr : List Event) : Prop :=
  Since (fun e => ∃ task memoryContext, e = .planTask task memoryContext plan) IsPlanTask tr

/-- The last execution of `plan_task` made the plan, and the plan was approved after it. -/
def Approved (plan : ExecutionPlan) (tr : List Event) : Prop :=
  ∃ pre task memoryContext post, tr = pre ++ .planTask task memoryContext plan :: post ∧
    (∀ e ∈ post, ¬ IsPlanTask e) ∧ ∃ e ∈ post, ApprovesPlan plan e

theorem Created.approve {plan : ExecutionPlan} {tr : List Event} {e : Event} (h : Created plan tr)
    (he : ApprovesPlan plan e) : Approved plan (tr ++ [e]) := by
  obtain ⟨pre, x, post, rfl, ⟨task, memoryContext, rfl⟩, hpost⟩ := h
  refine ⟨pre, task, memoryContext, post ++ [e], by simp, ?_, e, by simp, he⟩
  intro x hx
  rcases List.mem_append.1 hx with hx | hx
  · exact hpost x hx
  · obtain rfl := List.mem_singleton.1 hx
    obtain ⟨source, escalation, decision, rfl, -⟩ := he
    rintro ⟨task, memoryContext, plan', h⟩
    exact absurd h (by simp)

theorem Approved.keep {plan : ExecutionPlan} {tr : List Event} {e : Event} (h : Approved plan tr)
    (he : ¬ IsPlanTask e) : Approved plan (tr ++ [e]) := by
  obtain ⟨pre, task, memoryContext, post, rfl, hpost, x, hx, hax⟩ := h
  refine ⟨pre, task, memoryContext, post ++ [e], by simp, ?_, x, List.mem_append_left _ hx, hax⟩
  intro y hy
  rcases List.mem_append.1 hy with hy | hy
  · exact hpost y hy
  · rwa [List.mem_singleton.1 hy]

/-! ### No work before the plan is approved -/

/-- Work on the current plan is licensed. -/
structure Licensed (cfg : Settings) (tr : List Event) (s : OrchestratorState) : Prop where
  created : ∀ plan, s.plan = some plan → Created plan tr
  approved : ∀ plan, s.plan = some plan → needsApproval cfg s plan = true → Approved plan tr

/-- The gate after planning: passed, or closed and at `human_escalation`, or no gate on the way. -/
inductive Gate (cfg : Settings) (tr : List Event) (s : OrchestratorState) : Next → Prop
  | passed {n : Next} (h : Licensed cfg tr s) : Gate cfg tr s n
  | waiting (hp : Pristine s) (hc : ∀ plan, s.plan = some plan → Created plan tr) :
      Gate cfg tr s (.node .humanEscalation)
  | refused (hp : Pristine s) (hd : ∀ decision, s.humanDecision = some decision → decision.action ≠ .approve) :
      Gate cfg tr s (.node .applyHumanDecision)
  | off {n : Node} (h : n ∈ [Node.intake, .planTask, .deliver, .rejectTask]) : Gate cfg tr s (.node n)
  | finished : Gate cfg tr s .finish

theorem Licensed.keep {cfg : Settings} {tr : List Event} {s s' : OrchestratorState} {e : Event}
    (h : Licensed cfg tr s) (he : ¬ IsPlanTask e) (hp : s'.plan = s.plan)
    (hreq : s'.requireHumanApproval = s.requireHumanApproval) : Licensed cfg (tr ++ [e]) s' := by
  constructor
  · intro plan hplan
    rw [hp] at hplan
    exact Since.keep (h.created plan hplan) he
  · intro plan hplan hneeds
    rw [hp] at hplan
    unfold needsApproval at hneeds
    rw [hreq] at hneeds
    exact (h.approved plan hplan hneeds).keep he

theorem Gate.keep {cfg : Settings} {tr : List Event} {s s' : OrchestratorState} {n n' : Next} {e : Event}
    (h : Gate cfg tr s n) (hn : ∀ m ∈ [Node.intake, .planTask, .deliver, .rejectTask, .humanEscalation,
      .applyHumanDecision], n ≠ .node m) (hfin : n ≠ .finish) (he : ¬ IsPlanTask e) (hp : s'.plan = s.plan)
    (hreq : s'.requireHumanApproval = s.requireHumanApproval) : Gate cfg (tr ++ [e]) s' n' := by
  cases h with
  | passed h => exact .passed (h.keep he hp hreq)
  | waiting _ _ => exact absurd rfl (hn .humanEscalation (by decide))
  | refused _ _ => exact absurd rfl (hn .applyHumanDecision (by decide))
  | @off m hm => exact absurd rfl (hn m (List.mem_append_left [Node.humanEscalation, Node.applyHumanDecision] hm))
  | finished => exact absurd rfl hfin

/-- A refused plan is not worked on. -/
private theorem gate_refused {cfg : Settings} {tr : List Event} {s : OrchestratorState}
    {source : EscalationSource} {decision : HumanDecision} {level : EscalationLevel} {stuck : List String}
    {u : Update} {n : Next} (hp : Pristine s) (hc : Classified cfg s level source stuck) (hd : Decided s source decision stuck u n)
    (ha : decision.action ≠ .approve) : Gate cfg tr (s.apply u) n := by
  have hs := (hc.of_pristine hp).2
  have hretry : source ≠ .specialistRetry := by
    rintro rfl
    exact absurd hs (by decide)
  cases hd with
  | reject _ => exact .off (by decide)
  | takeOver _ _ => exact .off (by decide)
  | supply _ h _ _ => exact absurd h hretry
  | replan _ _ => exact .off (by decide)
  | guide _ h => exact absurd h hretry
  | redo _ h _ _ _ => exact absurd hs h
  | resume h _ => exact absurd h ha
  | retry h _ => exact absurd h ha
  | accept h _ _ => exact absurd h ha

/-- Step lemma for the gate. -/
theorem Gate.step {cfg : Settings} {tr : List Event} {c c' : Config} {e : Event} (hat : At cfg c.state c.next)
    (h : Gate cfg tr c.state c.next) (hs : Step cfg c e c') : Gate cfg (tr ++ [e]) c'.state c'.next := by
  have hno : ∀ e' : Event, (∀ task memoryContext plan, e' ≠ .planTask task memoryContext plan) → ¬ IsPlanTask e' :=
    fun e' hne ⟨task, memoryContext, plan, h⟩ => hne task memoryContext plan h
  cases hs.fires with
  | intake uuid memories => exact .off (by decide)
  | @planTask s plan n hroute =>
    have hcreated : ∀ plan', (s.apply (planTask plan)).plan = some plan' →
        Created plan' (tr ++ [.planTask s.task (s.memoryContext.getD "") plan]) := by
      intro plan' hplan'
      obtain rfl := Option.some.inj hplan'
      exact Since.now ⟨_, _, rfl⟩
    cases hat with
    | planTask hp =>
      rw [@routeAfterPlan_eq cfg _ plan _ rfl hroute]
      split
      · exact .waiting (hp.planTask plan).1 hcreated
      · rename_i hneeds
        refine .passed ⟨hcreated, fun plan' hplan' hneeds' => ?_⟩
        obtain rfl := Option.some.inj hplan'
        exact absurd hneeds' hneeds
  | routeBatch hroute => exact h.keep (by simp) (by simp) (hno _ (by simp)) rfl rfl
  | @specialists s batch result branches hb =>
    obtain ⟨plan, -, -, -, heff⟩ := hat.dispatched hb
    refine h.keep (by simp) (by simp) (hno _ (by simp)) ?_ ?_
    · show (applyAll s (branches.map Prod.snd)).plan = s.plan
      rw [heff.frame]
    · show (applyAll s (branches.map Prod.snd)).requireHumanApproval = s.requireHumanApproval
      rw [heff.frame]
  | review result hroute => exact h.keep (by simp) (by simp) (hno _ (by simp)) rfl rfl
  | applyReviewFeedback hu =>
    obtain ⟨r, -, rfl⟩ := update_of_applyReviewFeedback hu
    exact h.keep (by simp) (by simp) (hno _ (by simp)) rfl rfl
  | notifyHuman hu =>
    obtain ⟨escalation, rfl⟩ := update_of_notifyHuman hu
    exact h.keep (by simp) (by simp) (hno _ (by simp)) rfl rfl
  | synthesize text => exact .off (by decide)
  | deliver memory hu => exact .finished
  | rejectTask => exact .finished
  | @humanEscalation s decision escalation source he =>
    cases h with
    | passed h => exact .passed (h.keep (hno _ (by simp)) rfl rfl)
    | waiting hp hc =>
      by_cases ha : decision.action = .approve
      · -- the APPROVE is one of the plan that waits
        have happroves : ∀ plan, s.plan = some plan → ApprovesPlan plan (.humanEscalation source escalation decision) :=
          fun plan hplan => ⟨source, escalation, decision, rfl, ((classified_of_escalate he).of_pristine hp).2, ha,
            (plan_of_escalate he).trans hplan⟩
        exact .passed ⟨fun plan hplan => Since.keep (hc plan hplan) (hno _ (by simp)),
          fun plan hplan _ => (hc plan hplan).approve (happroves plan hplan)⟩
      · refine .refused ⟨hp.completed, hp.retryCounts, hp.review⟩ fun decision' hd' => ?_
        obtain rfl := Option.some.inj hd'
        exact ha
    | off hm => exact absurd hm (by decide)
  | @applyHumanDecision s decision source u n hd hsrc hu hroute =>
    obtain ⟨plan, escalation, hsound, ho, hp, hcase⟩ := hat.decided hd hsrc hu hroute
    cases h with
    | passed h =>
      have hframe : (s.apply u).plan = s.plan := by
        cases hcase <;> rfl
      exact .passed (h.keep (hno _ (by simp)) hframe rfl)
    | refused hpr ha => exact gate_refused hpr hp.classified hcase (ha decision hd)
    | off hm => exact absurd hm (by decide)

/-- Run lemma for the gate. -/
theorem gate_of_exec {cfg : Settings} {s : OrchestratorState} {tr : List Event} {c : Config} (h0 : Fresh s)
    (hr : Exec (Step cfg) (start s) tr c) : Gate cfg tr c.state c.next := by
  have hinv := hr.invariant (fun tr c => At cfg c.state c.next ∧ Gate cfg tr c.state c.next)
    ⟨at_start h0, .off (by decide)⟩
    fun tr c e c' _ hp hs => ⟨hp.1.step hs.fires, hp.2.step hp.1 hs⟩
  exact hinv.2

/-- No work before plan approval. -/
theorem approved_of_specialists {cfg : Settings} {s : OrchestratorState} {tr : List Event} {c c' : Config}
    {runs : List SpecialistRun} {run : SpecialistRun} (h0 : Fresh s) (hr : Exec (Step cfg) (start s) tr c)
    (hs : Step cfg c (.specialists runs) c') (hrun : run ∈ runs)
    (hneeds : run.plan.confidence.1 < cfg.planConfidenceThreshold ∨
      (∃ st ∈ run.plan.subtasks, st.sensitive = true) ∨ c.state.requireHumanApproval = true) :
    c.state.plan = some run.plan ∧ Approved run.plan tr := by
  have hat := at_of_exec h0 hr
  have hgate := gate_of_exec h0 hr
  cases hs.fires with
  | @specialists s batch result branches hb =>
    obtain ⟨plan, hsound, -, hran, -⟩ := hat.dispatched hb
    obtain ⟨sid, -, hsid⟩ := exists_ran_of_mem hran hrun
    have hplan : s.plan = some run.plan := by
      rw [hsid.plan_eq]
      exact hsound.plan_eq
    refine ⟨hplan, ?_⟩
    cases hgate with
    | passed h =>
      apply h.approved run.plan hplan
      unfold needsApproval
      rcases hneeds with h | ⟨st, hm, hst⟩ | h
      · simp [h]
      · have : run.plan.subtasks.any (·.sensitive) = true := List.any_eq_true.2 ⟨st, hm, hst⟩
        simp [this]
      · have hreq : s.requireHumanApproval = true := h
        simp [hreq]

/-- The specialist that `c` dispatches works on `plan`. -/
private def worksOn (plan : ExecutionPlan) (c : Config) : Bool :=
  match c.next with
  | .send batch => match runBatch (sampleResult true) batch with
    | .ok [(run, _)] => decide (run.plan = plan)
    | _ => false
  | _ => false

private theorem step_of_worksOn {plan : ExecutionPlan} {c : Config} (h : worksOn plan c = true) :
    ∃ run c', Step Settings.default c (.specialists [run]) c' ∧ run.plan = plan := by
  obtain ⟨s, next⟩ := c
  unfold worksOn at h
  dsimp only at h
  split at h
  · split at h
    · rename_i hb
      exact ⟨_, _, (Fires.specialists _ hb).step, of_decide_eq_true h⟩
    · cases h
  · cases h

/-- A plan with a sensitive subtask, approved and worked on. -/
theorem sensitive_approved_then_worked : ∃ tr c c' runs, Exec (Step Settings.default) (start sampleStart) tr c ∧
    Step Settings.default c (.specialists runs) c' ∧ runs ≠ [] ∧
    Approved sensitivePlan tr := by
  have hscript : scriptEnds (step Settings.default) (start sampleStart)
      [.intake "t" none, .plan sensitivePlan,
        .decision { action := .approve }, .none, .none]
      (fun _ c => worksOn sensitivePlan c) = true := by decide +kernel
  obtain ⟨tr, c, hr, hp⟩ := exec_of_scriptEnds hscript
  obtain ⟨run, c', hs, hplan⟩ := step_of_worksOn hp
  have hlicense := approved_of_specialists fresh_sampleStart hr hs List.mem_cons_self
    (Or.inr (Or.inl ⟨_, by rw [hplan]; exact List.mem_cons_self, rfl⟩))
  rw [hplan] at hlicense
  exact ⟨tr, c, c', _, hr, hs, by simp, hlicense.2⟩

/-! ### No delivery without a review or a decision -/

/-- The run synthesized after a review that let the task through, on the very results reviewed. -/
def ReviewedThenSynthesized (tr : List Event) : Prop :=
  ∃ pre completed result mid text, tr = pre ++ .review completed result :: (mid ++ [.synthesize completed text]) ∧
    result.approved = true ∧ result.requiresHumanReview = false ∧ (mid = [] ∨ mid = [.notifyHuman])

/-- A decision APPROVE or TAKE_OVER. -/
def IsAcceptance (e : Event) : Prop :=
  ∃ source escalation decision, e = .humanEscalation source escalation decision ∧
    (decision.action = .approve ∨ decision.action = .takeOver)

/-- The most recent decision was APPROVE or TAKE_OVER, and no review has come after it. -/
def HumanAccepted (tr : List Event) : Prop := Since IsAcceptance (fun e => IsReview e ∨ IsDecision e) tr

/-- What the history holds on the way to `deliver`. -/
inductive Cleared (tr : List Event) (s : OrchestratorState) : Next → Prop
  | accepted {n : Node} (h : HumanAccepted tr) (hn : n = .synthesize ∨ n = .deliver) : Cleared tr s (.node n)
  | reviewed {pre mid : List Event} {result : ReviewResult} {n : Node}
      (h : tr = pre ++ .review s.completed result :: mid) (ha : result.approved = true)
      (hr : result.requiresHumanReview = false)
      (hm : n = .notifyHuman ∧ mid = [] ∨ n = .synthesize ∧ (mid = [] ∨ mid = [.notifyHuman])) :
      Cleared tr s (.node n)
  | synthesized (h : ReviewedThenSynthesized tr) : Cleared tr s (.node .deliver)
  | decided {pre : List Event} {source : EscalationSource} {escalation : EscalationRequest} {decision : HumanDecision}
      (h : tr = pre ++ [.humanEscalation source escalation decision]) (hd : s.humanDecision = some decision) :
      Cleared tr s (.node .applyHumanDecision)
  | elsewhere {n : Next} (h : ∀ m ∈ [Node.notifyHuman, .synthesize, .deliver, .applyHumanDecision], n ≠ .node m) :
      Cleared tr s n

/-- A decision leads to `synthesize` or `deliver` only if it is an acceptance. -/
private theorem cleared_decided {tr : List Event} {s : OrchestratorState} {source source' : EscalationSource}
    {decision : HumanDecision} {escalation : EscalationRequest} {stuck : List String} {u : Update} {n : Next} {e : Event}
    {pre : List Event} (hd : Decided s source decision stuck u n)
    (htr : tr = pre ++ [.humanEscalation source' escalation decision]) (he : ¬ (IsReview e ∨ IsDecision e)) :
    Cleared (tr ++ [e]) (s.apply u) n := by
  have haccept : decision.action = .approve ∨ decision.action = .takeOver → HumanAccepted (tr ++ [e]) := by
    intro ha
    rw [htr]
    exact Since.keep (Since.now ⟨_, _, _, rfl, ha⟩) he
  cases hd with
  | reject _ => exact .elsewhere (by decide)
  | takeOver ha _ => exact .accepted (haccept (Or.inr ha)) (Or.inr rfl)
  | supply _ _ _ _ => exact .elsewhere (by decide)
  | replan _ _ => exact .elsewhere (by decide)
  | guide _ _ => exact .elsewhere (by decide)
  | redo _ _ _ _ _ => exact .elsewhere (by decide)
  | resume _ _ => exact .elsewhere (by decide)
  | retry _ _ => exact .elsewhere (by decide)
  | accept ha _ _ => exact .accepted (haccept (Or.inl ha)) (Or.inl rfl)

/-- Step lemma for what clears a delivery. -/
theorem Cleared.step {cfg : Settings} {tr : List Event} {c c' : Config} {e : Event} (hat : At cfg c.state c.next)
    (h : Cleared tr c.state c.next) (hs : Step cfg c e c') : Cleared (tr ++ [e]) c'.state c'.next := by
  cases hs.fires with
  | intake uuid memories => exact .elsewhere (by simp)
  | planTask plan hroute =>
    rw [@routeAfterPlan_eq cfg _ plan _ rfl hroute]
    split
    · exact .elsewhere (by simp)
    · exact .elsewhere (by simp)
  | routeBatch hroute =>
    cases hat with
    | routeBatch hsound =>
      cases decides_of_eq hsound.plan_eq hsound.mem_planIds hroute with
      | stuck _ => exact .elsewhere (by simp)
      | batch _ _ => exact .elsewhere (by simp)
      | blocked _ _ _ => exact .elsewhere (by simp)
      | review _ => exact .elsewhere (by simp)
  | specialists result hb => exact .elsewhere (by simp)
  | review result hroute =>
    cases reviewed_of_route (r := result) rfl hroute with
    | escalate _ => exact .elsewhere (by simp)
    | notify hh ha _ => exact .reviewed rfl ha hh (Or.inl ⟨rfl, rfl⟩)
    | accept hh ha _ => exact .reviewed rfl ha hh (Or.inr ⟨rfl, Or.inl rfl⟩)
    | redo _ _ _ => exact .elsewhere (by simp)
  | applyReviewFeedback hu => exact .elsewhere (by simp)
  | notifyHuman hu =>
    obtain ⟨escalation, rfl⟩ := update_of_notifyHuman hu
    cases h with
    | accepted _ hn => exact absurd hn (by decide)
    | @reviewed pre mid result _ htr ha hr hm =>
      obtain ⟨-, rfl⟩ : Node.notifyHuman = .notifyHuman ∧ mid = [] := by simpa using hm
      refine @Cleared.reviewed _ _ pre [.notifyHuman] result .synthesize ?_ ha hr (Or.inr ⟨rfl, Or.inr rfl⟩)
      rw [htr]
      simp
    | elsewhere hne => exact absurd rfl (hne .notifyHuman (by decide))
  | @synthesize s text =>
    cases h with
    | accepted h _ =>
      exact .accepted (Since.keep h (by simp [IsReview, IsDecision])) (Or.inr rfl)
    | @reviewed pre mid result _ htr ha hr hm =>
      have hmid : mid = [] ∨ mid = [.notifyHuman] := by simpa using hm
      refine .synthesized ⟨pre, s.completed, result, mid, text, ?_, ha, hr, hmid⟩
      rw [htr]
      simp
    | elsewhere hne => exact absurd rfl (hne .synthesize (by decide))
  | deliver memory hu => exact .elsewhere (by simp)
  | rejectTask => exact .elsewhere (by simp)
  | humanEscalation decision he => exact .decided rfl rfl
  | @applyHumanDecision s decision source u n hd hsrc hu hroute =>
    obtain ⟨plan, escalation, hsound, ho, hp, hcase⟩ := hat.decided hd hsrc hu hroute
    cases h with
    | accepted _ hn => exact absurd hn (by decide)
    | reviewed _ _ _ hm => exact absurd hm (by simp)
    | decided htr hd' =>
      obtain rfl := Option.some.inj (hd.symm.trans hd')
      exact cleared_decided hcase htr (by simp [IsReview, IsDecision])
    | elsewhere hne => exact absurd rfl (hne .applyHumanDecision (by decide))

/-- Run lemma for what clears a delivery. -/
theorem cleared_of_exec {cfg : Settings} {s : OrchestratorState} {tr : List Event} {c : Config} (h0 : Fresh s)
    (hr : Exec (Step cfg) (start s) tr c) : Cleared tr c.state c.next := by
  have hinv := hr.invariant (fun tr c => At cfg c.state c.next ∧ Cleared tr c.state c.next)
    ⟨at_start h0, .elsewhere (by simp [start])⟩
    fun tr c e c' _ hp hs => ⟨hp.1.step hs.fires, hp.2.step hp.1 hs⟩
  exact hinv.2

/-- After a review that asks for a human, only an acceptance clears a delivery. -/
private theorem acceptance_after_review {tr : List Event} (h : ReviewedThenSynthesized tr ∨ HumanAccepted tr)
    {pre post : List Event} {completed : Dict String SubtaskResult} {result : ReviewResult}
    (htr : tr = pre ++ .review completed result :: post) (hpost : ∀ e ∈ post, ¬ IsReview e)
    (hreq : result.requiresHumanReview = true) : ∃ e ∈ post, IsAcceptance e := by
  have hlast : IsReview (.review completed result) := ⟨completed, result, rfl⟩
  rcases h with ⟨pre', completed', result', mid, text, htr', -, hreq', hmid⟩ | h
  · have hsince : Since (fun e => ∃ completed, e = .review completed result') IsReview tr := by
      refine ⟨pre', _, _, htr', ⟨completed', rfl⟩, ?_⟩
      intro x hx
      rcases hmid with rfl | rfl
      · obtain rfl := List.mem_singleton.1 hx
        simp [IsReview]
      · rcases List.mem_cons.1 hx with rfl | hx
        · simp [IsReview]
        · obtain rfl := List.mem_singleton.1 hx
          simp [IsReview]
    rcases hsince.last htr hlast hpost with ⟨c, h⟩ | ⟨y, hy, c, rfl⟩
    · obtain ⟨-, rfl⟩ := Event.review.inj h
      exact absurd (hreq.symm.trans hreq') (by simp)
    · exact absurd ⟨c, result', rfl⟩ (hpost _ hy)
  · have hsince : Since IsAcceptance IsReview tr := h.imp (fun _ hx => hx) fun _ hx => Or.inl hx
    rcases hsince.last htr hlast hpost with ⟨source, escalation, decision, h, -⟩ | hex
    · exact absurd h (by simp)
    · exact hex

/-- No unreviewed or unapproved delivery. -/
theorem licensed_of_deliver {cfg : Settings} {s : OrchestratorState} {tr : List Event} {c c' : Config}
    {record : Option MemoryRecord} (h0 : Fresh s) (hr : Exec (Step cfg) (start s) tr c)
    (hs : Step cfg c (.deliver record) c') :
    (ReviewedThenSynthesized tr ∨ HumanAccepted tr) ∧
      ∀ pre completed result post, tr = pre ++ .review completed result :: post → (∀ e ∈ post, ¬ IsReview e) →
        result.requiresHumanReview = true → ∃ e ∈ post, IsAcceptance e := by
  have hcleared := cleared_of_exec h0 hr
  have hor : ReviewedThenSynthesized tr ∨ HumanAccepted tr := by
    cases hs.fires with
    | deliver memory hu =>
      cases hcleared with
      | accepted h _ => exact Or.inr h
      | reviewed _ _ _ hm => exact absurd hm (by simp)
      | synthesized h => exact Or.inl h
      | elsewhere hne => exact absurd rfl (hne .deliver (by decide))
  exact ⟨hor, fun pre completed result post htr hpost hreq => acceptance_after_review hor htr hpost hreq⟩

/-- A sensitive deliverable, approved by the human and delivered. -/
theorem sensitive_deliverable_accepted : ∃ tr c c', Exec (Step Settings.default) (start sampleStart) tr c ∧
    Step Settings.default c (.deliver none) c' ∧ (ReviewedThenSynthesized tr ∨ HumanAccepted tr) := by
  have hscript : scriptEnds (step Settings.default) (start sampleStart)
      [.intake "t" none, .plan (samplePlan [sampleSubtask "a" []]), .none, .results (sampleResult true), .none,
        .review { sampleReview true [] with requiresHumanReview := true }, .decision { action := .approve }, .none,
        .synthesis "text"]
      (fun _ c => decide (c.next = .node .deliver)) = true := by decide +kernel
  obtain ⟨tr, ⟨s, next⟩, hr, hp⟩ := exec_of_scriptEnds hscript
  obtain rfl : next = .node .deliver := of_decide_eq_true hp
  have hs := (@Fires.deliver Settings.default s none none { status := some .completed } rfl).step
  exact ⟨tr, _, _, hr, hs, (licensed_of_deliver fresh_sampleStart hr hs).1⟩

end AgentOrchestrator
