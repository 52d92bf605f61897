import AgentOrchestrator.Graph.Progress

/-!
# From one review to the next

Two reviews follow each other only through `apply_review_feedback`: the reviewer rejects and the cycles are not used
up, or a human who was asked answers MODIFY.  If what is put back then contains an id of the plan, the scheduler has to
dispatch it, with the feedback stored for it, before it can answer "review" again (`precedes_of_unfinished`).  The ids
that the reviewer lists may be missing or unknown, and then nothing is dispatched: the same results are reviewed again
(`redo_follows_iff`).
-/

namespace AgentOrchestrator

open Fallible

/-- `review` is about to run. -/
def AtReview (c : Config) : Prop := c.next = .node .review

/-- A specialist is run again with the text as its feedback. -/
def RerunsWith (text : String) (e : Event) : Prop :=
  ∃ runs run, e = .specialists runs ∧ run ∈ runs ∧ run.feedback = some text

/-- Results are stored anew in `completed`. -/
def StoresResults (e : Event) : Prop :=
  (∃ runs, e = .specialists runs ∧ runs ≠ []) ∨
    ∃ source decision update sid result, e = .applyHumanDecision source decision update ∧
      update.get? sid = some (some result)

/-- The subtasks in `s` that are not done are dispatched, each with the feedback stored for it. -/
def Dispatches (plan : ExecutionPlan) (s : OrchestratorState) (e : Event) : Prop :=
  ∃ runs, e = .specialists runs ∧ runs ≠ [] ∧
    ∀ run ∈ runs, run.subtask.id ∈ planIds plan ∧ ¬ isDone s.completed run.subtask.id = true ∧
      run.feedback = s.subtaskFeedback.get? run.subtask.id

/-- No failed result is stored. -/
def AllSucceeded (s : OrchestratorState) : Prop :=
  ∀ sid result, s.completed.get? sid = some result → result.success = true

theorem AllSucceeded.scan_stuck {cfg : Settings} {plan : ExecutionPlan} {s : OrchestratorState} (h : AllSucceeded s) :
    (scan cfg plan s.completed s.retryCounts).stuck = [] := by
  rw [List.eq_nil_iff_forall_not_mem]
  intro sid hsid
  obtain ⟨-, result, hr, hfail, -⟩ := mem_scan_stuck.1 hsid
  exact absurd (hfail.symm.trans (h sid result hr)) (by simp)

theorem Sound.allSucceeded {plan : ExecutionPlan} {s : OrchestratorState} (h : Sound plan s)
    (hd : AllDone plan s.completed) : AllSucceeded s := by
  intro sid result hr
  obtain ⟨result', hr', hs⟩ := isDone_iff.1 (hd sid (h.mem_planIds sid result hr))
  obtain rfl := Option.some.inj (hr.symm.trans hr')
  exact hs

/-- Deleting entries leaves only successes if there were only successes. -/
theorem AllSucceeded.delete {s s' : OrchestratorState} {ids : List String} (h : AllSucceeded s)
    (hc : ∀ sid, s'.completed.get? sid = if sid ∈ ids then none else s.completed.get? sid) : AllSucceeded s' := by
  intro sid result hr
  rw [hc] at hr
  split at hr
  · exact absurd hr (by simp)
  · exact h sid result hr

/-! ### The scheduler after a redo -/

/-- After a review, what has been put back is dispatched before the next review. -/
theorem precedes_of_unfinished {cfg : Settings} {plan : ExecutionPlan} {s : OrchestratorState} {r : ReviewResult}
    (h : Sound plan s) (hs : AllSucceeded s) (hr : s.review = some r)
    (hx : ∃ sid ∈ planIds plan, ¬ isDone s.completed sid = true) :
    Precedes (Step cfg) (Dispatches plan s) AtReview ⟨s, .node .routeBatch⟩ := by
  have hnot : ¬ AllDone plan s.completed := by
    rintro hd
    obtain ⟨sid, hsid, hnd⟩ := hx
    exact hnd (hd sid hsid)
  refine Precedes.step (by simp [AtReview]) fun e c' hstep => Or.inr ?_
  have hat : At cfg c'.state c'.next := At.step (At.routeBatch h) hstep.fires
  cases hstep.fires with
  | routeBatch hn =>
    cases decides_of_eq h.plan_eq h.mem_planIds hn with
    | stuck hst => exact absurd hs.scan_stuck hst
    | blocked _ hb _ => exact absurd hb (h.not_blocked_of_review hr hnot)
    | review hd => exact absurd hd hnot
    | batch _ _ =>
      refine Precedes.step (by simp [AtReview]) fun e c'' hstep' => Or.inl ?_
      cases hstep'.fires with
      | specialists result hb =>
        obtain ⟨plan', h', hready, hran, -⟩ := hat.dispatched hb
        obtain rfl := h.plan_unique h'.plan_eq
        refine ⟨_, rfl, fun hnil => ?_, fun run hrun => ?_⟩
        · have hlen := hran.length_eq
          rw [hnil, List.length_nil] at hlen
          exact hready (List.length_eq_zero_iff.1 hlen)
        · obtain ⟨sid, hsid, hrun'⟩ := exists_ran_of_mem hran hrun
          obtain ⟨hk, hnd, -⟩ := mem_scan_ready.1 hsid
          rw [hrun'.id]
          exact ⟨hk, hnd, hrun'.feedback⟩

theorem Dispatches.storesResults {plan : ExecutionPlan} {s : OrchestratorState} {e : Event} (h : Dispatches plan s e) :
    StoresResults e := by
  obtain ⟨runs, rfl, hne, -⟩ := h
  exact Or.inl ⟨runs, rfl, hne⟩

/-- If all that is not done has the same feedback, the text is handed over. -/
theorem Dispatches.rerunsWith {plan : ExecutionPlan} {s : OrchestratorState} {e : Event} {text : String}
    (h : Dispatches plan s e) (hf : ∀ sid ∈ planIds plan, ¬ isDone s.completed sid = true →
      s.subtaskFeedback.get? sid = some text) : RerunsWith text e := by
  obtain ⟨runs, rfl, hne, hall⟩ := h
  obtain ⟨run, hrun⟩ := List.exists_mem_of_ne_nil _ hne
  obtain ⟨hk, hnd, hfeedback⟩ := hall run hrun
  exact ⟨runs, run, rfl, hrun, hfeedback.trans (hf _ hk hnd)⟩

/-- With everything done the scheduler goes to the reviewer at once. -/
theorem fires_review {cfg : Settings} {plan : ExecutionPlan} {s : OrchestratorState} (h : Sound plan s)
    (hd : AllDone plan s.completed) : Fires cfg ⟨s, .node .routeBatch⟩ .routeBatch ⟨s, .node .review⟩ := by
  obtain ⟨n, hn, hdec⟩ := @decideNextBatch_cases cfg plan s h.plan_eq h.mem_planIds
  cases hdec with
  | stuck hst => exact absurd (scan_stuck_of_allDone hd) hst
  | batch _ hr =>
    obtain ⟨sid, hsid⟩ := List.exists_mem_of_ne_nil _ hr
    obtain ⟨hk, hnd, -⟩ := mem_scan_ready.1 hsid
    exact absurd (hd sid hk) hnd
  | blocked _ _ hnot => exact absurd hd hnot
  | review _ => exact .routeBatch hn

/-! ### No review any more -/

/-- From here on there is no way back to the reviewer. -/
def Next.isEnding : Next → Bool
  | .node .notifyHuman => true
  | .node .synthesize => true
  | .node .deliver => true
  | .node .rejectTask => true
  | .finish => true
  | _ => false

theorem isEnding_step {cfg : Settings} {c c' : Config} {e : Event} (h : c.next.isEnding = true)
    (hs : Step cfg c e c') : c'.next.isEnding = true := by
  cases hs.fires with
  | notifyHuman _ => rfl
  | synthesize _ => rfl
  | deliver _ _ => rfl
  | rejectTask => rfl
  | _ => exact absurd h (by simp [Next.isEnding])

theorem precedes_of_isEnding {cfg : Settings} {c : Config} {p : Event → Prop} (h : c.next.isEnding = true) :
    Precedes (Step cfg) p AtReview c := by
  refine Precedes.of_invariant (fun c => c.next.isEnding = true) h (fun _ _ _ => isEnding_step) fun c hc hn => ?_
  rw [hn] at hc
  exact absurd hc (by simp [Next.isEnding])

/-! ### What puts subtasks back -/

/-- What `apply_review_feedback` makes of the channels of the scheduler. -/
structure Redone (plan : ExecutionPlan) (r : ReviewResult) (s s' : OrchestratorState) : Prop where
  sound : Sound plan s'
  review : s'.review = some r
  completed : ∀ sid, s'.completed.get? sid = if sid ∈ r.subtasksToRedo then none else s.completed.get? sid
  feedback : ∀ sid, s'.subtaskFeedback.get? sid =
    if sid ∈ r.subtasksToRedo then some r.feedback else s.subtaskFeedback.get? sid

theorem redone_of_fires {cfg : Settings} {plan : ExecutionPlan} {s : OrchestratorState} {r : ReviewResult}
    {c' : Config} {e : Event} (h : Sound plan s) (hr : s.review = some r)
    (hf : Fires cfg ⟨s, .node .applyReviewFeedback⟩ e c') :
    c'.next = .node .routeBatch ∧ Redone plan r s c'.state ∧ ¬ StoresResults e := by
  have hat : At cfg c'.state c'.next := At.step (At.applyReviewFeedback h hr) hf
  cases hf with
  | applyReviewFeedback hu =>
    obtain ⟨r', hr', rfl⟩ := update_of_applyReviewFeedback hu
    obtain rfl := Option.some.inj (hr.symm.trans hr')
    cases hat with
    | routeBatch hsound =>
      obtain rfl := h.plan_unique hsound.plan_eq
      refine ⟨rfl, ⟨hsound, hr, get?_merge_ofKeys _ _ _, get?_merge_ofKeys _ _ _⟩, ?_⟩
      simp [StoresResults]

theorem Redone.isDone_iff {plan : ExecutionPlan} {r : ReviewResult} {s s' : OrchestratorState}
    (h : Redone plan r s s') (sid : String) :
    isDone s'.completed sid = true ↔ sid ∉ r.subtasksToRedo ∧ isDone s.completed sid = true := by
  by_cases hin : sid ∈ r.subtasksToRedo
  · unfold isDone
    rw [h.completed, if_pos hin]
    simp [hin]
  · have heq : s'.completed.get? sid = s.completed.get? sid := by rw [h.completed, if_neg hin]
    rw [isDone_congr heq]
    simp [hin]

/-- After `apply_review_feedback` what is not done is dispatched before the next review; if it is all on the
reviewer's list, with the feedback of the review. -/
theorem precedes_of_redo {cfg : Settings} {plan : ExecutionPlan} {s : OrchestratorState} {r : ReviewResult}
    (h : Sound plan s) (hs : AllSucceeded s) (hr : s.review = some r)
    (hx : ∃ sid ∈ planIds plan, sid ∈ r.subtasksToRedo ∨ ¬ isDone s.completed sid = true) :
    Precedes (Step cfg)
      (fun e => StoresResults e ∧
        ((∀ sid ∈ planIds plan, ¬ isDone s.completed sid = true → sid ∈ r.subtasksToRedo) → RerunsWith r.feedback e))
      AtReview ⟨s, .node .applyReviewFeedback⟩ := by
  refine Precedes.step (by simp [AtReview]) fun e c' hstep => Or.inr ?_
  obtain ⟨hnext, hredone, -⟩ := redone_of_fires h hr hstep.fires
  obtain ⟨s', next⟩ := c'
  obtain rfl : next = .node .routeBatch := hnext
  have hundone : ∃ sid ∈ planIds plan, ¬ isDone s'.completed sid = true := by
    obtain ⟨sid, hk, hsid⟩ := hx
    refine ⟨sid, hk, fun hd => ?_⟩
    obtain ⟨hnot, hd⟩ := (hredone.isDone_iff sid).1 hd
    rcases hsid with hin | hnd
    · exact hnot hin
    · exact hnd hd
  refine (precedes_of_unfinished hredone.sound (hs.delete hredone.completed) hredone.review hundone).mono
    fun e he => ⟨he.storesResults, fun hlisted => he.rerunsWith fun sid hk hnd => ?_⟩
  have hin : sid ∈ r.subtasksToRedo := by
    by_contra hnot
    exact hnot (hlisted sid hk fun hd => hnd ((hredone.isDone_iff sid).2 ⟨hnot, hd⟩))
  exact (hredone.feedback sid).trans (if_pos hin)

/-- A MODIFY after a review, as far as the channels of the scheduler are concerned. -/
structure Modified (plan : ExecutionPlan) (r : ReviewResult) (s s' : OrchestratorState) : Prop where
  sound : Sound plan s'
  review : s'.review = some r
  completed : ∀ sid, s'.completed.get? sid = if sid ∈ redoIds r plan then none else s.completed.get? sid

/-- After a review a decision ends the run, unless it is a MODIFY. -/
theorem modified_or_ending {cfg : Settings} {plan : ExecutionPlan} {s : OrchestratorState} {r : ReviewResult}
    {c' : Config} {e : Event} (h : Sound plan s) (hr : s.review = some r)
    (hat : At cfg s (.node .applyHumanDecision)) (hf : Fires cfg ⟨s, .node .applyHumanDecision⟩ e c') :
    ∃ decision, s.humanDecision = some decision ∧
      (decision.action ≠ .modify ∧ c'.next.isEnding = true ∨
        c'.next = .node .applyReviewFeedback ∧ Modified plan r s c'.state ∧ ¬ StoresResults e) := by
  have hat' := At.step hat hf
  cases hf with
  | @applyHumanDecision _ decision source u n hd hsrc hu hn =>
    obtain ⟨plan', escalation, h', -, hp, hdecided⟩ := hat.decided hd hsrc hu hn
    obtain rfl := h.plan_unique h'.plan_eq
    -- nothing but a review is escalated once there is one
    have hreviewed : ¬ (source ∈ planSources ∨ source = .specialistRetry) := by
      have hclass := hp.classified.of_reviewed hr
      split at hclass
      · rw [hclass.2]
        decide
      · rw [hclass.2]
        decide
    refine ⟨decision, hd, ?_⟩
    cases hdecided with
    | reject ha => exact Or.inl ⟨by simp [ha], rfl⟩
    | takeOver ha _ => exact Or.inl ⟨by simp [ha], rfl⟩
    | accept ha _ _ => exact Or.inl ⟨by simp [ha], rfl⟩
    | supply _ hs _ _ => exact absurd (Or.inr hs) hreviewed
    | replan _ hs => exact absurd (Or.inl hs) hreviewed
    | guide _ hs => exact absurd (Or.inr hs) hreviewed
    | resume _ hs => exact absurd (Or.inl hs) hreviewed
    | retry _ hs => exact absurd (Or.inr hs) hreviewed
    | redo _ _ _ hr' hp' =>
      obtain rfl := Option.some.inj (hr.symm.trans hr')
      obtain rfl := h.plan_unique hp'
      cases hat' with
      | applyReviewFeedback hsound _ =>
        obtain rfl := h.plan_unique hsound.plan_eq
        refine Or.inr ⟨rfl, ⟨hsound, hr, get?_merge_ofKeys _ _ _⟩, ?_⟩
        rintro (⟨runs, hruns, -⟩ | ⟨_, _, update, sid, result, heq, hres⟩)
        · exact absurd hruns (by simp)
        · obtain ⟨-, -, rfl⟩ := Event.applyHumanDecision.inj heq
          rw [Dict.get?_ofKeys_eq_some] at hres
          exact absurd hres.2 (by simp)

/-- A human who is asked after a review puts back what he is told to redo, or ends the run. -/
theorem precedes_of_decision {cfg : Settings} {plan : ExecutionPlan} {s : OrchestratorState} {r : ReviewResult}
    (hat : At cfg s (.node .applyHumanDecision)) (h : Sound plan s) (hr : s.review = some r)
    (hd : AllDone plan s.completed) (hx : ∃ sid ∈ redoIds r plan, sid ∈ planIds plan) :
    Precedes (Step cfg) StoresResults AtReview ⟨s, .node .applyHumanDecision⟩ := by
  refine Precedes.step (by simp [AtReview]) fun e c' hstep => Or.inr ?_
  obtain ⟨decision, -, ⟨-, hend⟩ | ⟨hnext, hmod, -⟩⟩ := modified_or_ending h hr hat hstep.fires
  · exact precedes_of_isEnding hend
  · obtain ⟨s', next⟩ := c'
    obtain rfl : next = .node .applyReviewFeedback := hnext
    have hsucc : AllSucceeded s' := (h.allSucceeded hd).delete hmod.completed
    obtain ⟨sid, hin, hk⟩ := hx
    have hundone : ¬ isDone s'.completed sid = true := by
      unfold isDone
      rw [hmod.completed, if_pos hin]
      simp
    exact (precedes_of_redo hmod.sound hsucc hmod.review ⟨sid, hk, Or.inr hundone⟩).mono fun e he => he.1

theorem precedes_of_asked {cfg : Settings} {plan : ExecutionPlan} {s : OrchestratorState} {r : ReviewResult}
    (hat : At cfg s (.node .humanEscalation)) (h : Sound plan s) (hr : s.review = some r)
    (hd : AllDone plan s.completed) (hx : ∃ sid ∈ redoIds r plan, sid ∈ planIds plan) :
    Precedes (Step cfg) StoresResults AtReview ⟨s, .node .humanEscalation⟩ := by
  refine Precedes.step (by simp [AtReview]) fun e c' hstep => Or.inr ?_
  have hat' : At cfg c'.state c'.next := At.step hat hstep.fires
  cases hstep.fires with
  | humanEscalation decision he => exact precedes_of_decision hat' (h.congr rfl rfl rfl rfl) hr hd hx

/-! ### A redo of nothing -/

/-- The steps from `apply_review_feedback` back to the reviewer when nothing of the plan is open. -/
theorem exists_redo_of_nothing {cfg : Settings} {plan : ExecutionPlan} {s : OrchestratorState} {r : ReviewResult}
    (h : Sound plan s) (hr : s.review = some r) (hd : AllDone plan s.completed)
    (hno : ∀ sid ∈ r.subtasksToRedo, sid ∉ planIds plan) :
    ∃ tr c, Exec (Step cfg) ⟨s, .node .applyReviewFeedback⟩ tr c ∧ AtReview c ∧ ∀ e ∈ tr, ¬ StoresResults e := by
  have hstep : ∃ e c', Step cfg ⟨s, .node .applyReviewFeedback⟩ e c' :=
    exists_step_of_at (At.applyReviewFeedback h hr) (by simp)
  obtain ⟨e, ⟨s', next⟩, hstep⟩ := hstep
  obtain ⟨hnext, hredone, hquiet⟩ := redone_of_fires h hr hstep.fires
  obtain rfl : next = .node .routeBatch := hnext
  have hd' : AllDone plan s'.completed := fun sid hk =>
    (hredone.isDone_iff sid).2 ⟨fun hin => hno sid hin hk, hd sid hk⟩
  refine ⟨[e, .routeBatch], _, (Exec.single hstep).snoc (fires_review hredone.sound hd').step, rfl, ?_⟩
  intro e' he'
  rcases List.mem_pair.1 he' with rfl | rfl
  · exact hquiet
  · simp [StoresResults]

/-- A human who is asked after a review may answer MODIFY. -/
theorem exists_modify {cfg : Settings} {plan : ExecutionPlan} {s : OrchestratorState} {r : ReviewResult}
    (hat : At cfg s (.node .humanEscalation)) (h : Sound plan s) (hr : s.review = some r) :
    ∃ tr s', Exec (Step cfg) ⟨s, .node .humanEscalation⟩ tr ⟨s', .node .applyReviewFeedback⟩ ∧ Modified plan r s s' ∧
      ∀ e ∈ tr, ¬ StoresResults e := by
  obtain ⟨escalation, source, he⟩ := @exists_escalate cfg s plan h.plan_eq
  have hfire := Fires.humanEscalation { action := .modify, feedback := some "Again." } he
  have hat' := hat.step hfire
  obtain ⟨e, ⟨s', next⟩, hstep⟩ := exists_step_of_at hat' (by simp)
  have hsound : Sound plan (s.apply {
      escalation := some escalation
      escalationSource := some source
      humanDecision := some { action := .modify, feedback := some "Again." } }) := h.congr rfl rfl rfl rfl
  obtain ⟨decision, hd, ⟨hne, -⟩ | ⟨hnext, hmod, hquiet⟩⟩ := modified_or_ending hsound hr hat' hstep.fires
  · obtain rfl := Option.some.inj hd
    exact absurd rfl hne
  · obtain rfl : next = .node .applyReviewFeedback := hnext
    refine ⟨[_, e], s', (Exec.single hfire.step).snoc hstep, ⟨hmod.sound, hmod.review, hmod.completed⟩, ?_⟩
    intro e' he'
    rcases List.mem_pair.1 he' with rfl | rfl
    · simp [StoresResults]
    · exact hquiet

/-! ### Every review -/

/-- The review goes back to the specialists without a human. -/
def Rejects (cfg : Settings) (s : OrchestratorState) (r : ReviewResult) : Prop :=
  r.approved = false ∧ r.requiresHumanReview = false ∧ ¬ cfg.maxReviewCycles ≤ (s.reviewCycles : Int)

/-- The review goes to a human. -/
def AsksHuman (cfg : Settings) (s : OrchestratorState) (r : ReviewResult) : Prop :=
  r.requiresHumanReview = true ∨ r.approved = false ∧ cfg.maxReviewCycles ≤ (s.reviewCycles : Int)

/-- After the review `r`, which led to `c`, nothing is reviewed unchanged, and a rejection leads to a redo. -/
structure RedoFollows (cfg : Settings) (r : ReviewResult) (c : Config) : Prop where
  rerun : Rejects cfg c.state r → Precedes (Step cfg) (RerunsWith r.feedback) AtReview c
  changed : Precedes (Step cfg) StoresResults AtReview c

/-- Nothing is dispatched between two reviews if nothing of the plan has been put back. -/
theorem not_precedes_of_nothing {cfg : Settings} {plan : ExecutionPlan} {s : OrchestratorState} {r : ReviewResult}
    {c : Config} {tr : List Event} {p : Event → Prop} (hp : ∀ e, p e → StoresResults e) (h : Sound plan s)
    (hr : s.review = some r) (hd : AllDone plan s.completed) (hno : ∀ sid ∈ r.subtasksToRedo, sid ∉ planIds plan)
    (hrun : Exec (Step cfg) c tr ⟨s, .node .applyReviewFeedback⟩) (hquiet : ∀ e ∈ tr, ¬ StoresResults e) :
    ¬ Precedes (Step cfg) p AtReview c := by
  intro hprec
  obtain ⟨tr', c', hrun', hc', hquiet'⟩ := @exists_redo_of_nothing cfg plan s r h hr hd hno
  obtain ⟨e, he, hpe⟩ := hprec _ c' (hrun.trans hrun') hc'
  rcases List.mem_append.1 he with he | he
  · exact hquiet e he (hp e hpe)
  · exact hquiet' e he (hp e hpe)

theorem RerunsWith.storesResults {text : String} {e : Event} (h : RerunsWith text e) : StoresResults e := by
  obtain ⟨runs, run, rfl, hrun, -⟩ := h
  exact Or.inl ⟨runs, rfl, List.ne_nil_of_mem hrun⟩

/-- What is put back after the review `r` contains an id of the plan. -/
structure PutsBack (cfg : Settings) (plan : ExecutionPlan) (s : OrchestratorState) (r : ReviewResult) : Prop where
  rejected : Rejects cfg s r → ∃ sid ∈ r.subtasksToRedo, sid ∈ planIds plan
  asked : AsksHuman cfg s r → ∃ sid ∈ redoIds r plan, sid ∈ planIds plan

theorem not_rejects_of_asksHuman {cfg : Settings} {s : OrchestratorState} {r : ReviewResult} (h : AsksHuman cfg s r) :
    ¬ Rejects cfg s r := by
  rintro ⟨-, hh, hc⟩
  rcases h with hask | ⟨-, hask⟩
  · exact absurd (hh.symm.trans hask) (by simp)
  · exact hc hask

/-- Behind a review that goes to a human. -/
theorem redoFollows_asked {cfg : Settings} {plan : ExecutionPlan} {s : OrchestratorState} {r : ReviewResult}
    (hat : At cfg s (.node .humanEscalation)) (h : Sound plan s) (hr : s.review = some r)
    (hd : AllDone plan s.completed) (hask : AsksHuman cfg s r) :
    RedoFollows cfg r ⟨s, .node .humanEscalation⟩ ↔ PutsBack cfg plan s r := by
  have hnot := not_rejects_of_asksHuman hask
  constructor
  · intro hredo
    refine ⟨fun hrej => absurd hrej hnot, fun _ => ?_⟩
    by_contra hno
    simp only [not_exists, not_and] at hno
    obtain ⟨tr, s', hrun, hmod, hquiet⟩ := exists_modify hat h hr
    refine not_precedes_of_nothing (fun _ h => h) hmod.sound hmod.review ?_
      (fun sid hsid => hno sid (subset_redoIds r plan hsid)) hrun hquiet hredo.changed
    intro sid hk
    have heq : s'.completed.get? sid = s.completed.get? sid := by
      rw [hmod.completed, if_neg fun hin => hno sid hin hk]
    rw [isDone_congr heq]
    exact hd sid hk
  · intro hback
    exact ⟨fun hrej => absurd hrej hnot, precedes_of_asked hat h hr hd (hback.asked hask)⟩

/-- Behind a rejection. -/
theorem redoFollows_rejected {cfg : Settings} {plan : ExecutionPlan} {s : OrchestratorState} {r : ReviewResult}
    (h : Sound plan s) (hr : s.review = some r) (hd : AllDone plan s.completed) (hrej : Rejects cfg s r) :
    RedoFollows cfg r ⟨s, .node .applyReviewFeedback⟩ ↔ PutsBack cfg plan s r := by
  constructor
  · intro hredo
    refine ⟨fun _ => ?_, fun hask => absurd hrej (not_rejects_of_asksHuman hask)⟩
    by_contra hno
    simp only [not_exists, not_and] at hno
    exact not_precedes_of_nothing (fun _ h => h) h hr hd hno .refl (by simp) hredo.changed
  · intro hback
    obtain ⟨sid, hin, hk⟩ := hback.rejected hrej
    have hprec := @precedes_of_redo cfg plan s r h (h.allSucceeded hd) hr ⟨sid, hk, Or.inl hin⟩
    exact ⟨fun _ => hprec.mono fun e he => he.2 fun sid hk hnd => absurd (hd sid hk) hnd, hprec.mono fun e he => he.1⟩

/-- Behind an approval. -/
theorem redoFollows_approved {cfg : Settings} {plan : ExecutionPlan} {s : OrchestratorState} {r : ReviewResult}
    {n : Next} (hn : n.isEnding = true) (ha : r.approved = true) (hh : r.requiresHumanReview = false) :
    RedoFollows cfg r ⟨s, n⟩ ↔ PutsBack cfg plan s r := by
  have hrej : ¬ Rejects cfg s r := fun h => absurd (ha.symm.trans h.1) (by simp)
  have hask : ¬ AsksHuman cfg s r := by
    rintro (h | ⟨h, -⟩)
    · exact absurd (hh.symm.trans h) (by simp)
    · exact absurd (ha.symm.trans h) (by simp)
  exact ⟨fun _ => ⟨fun h => absurd h hrej, fun h => absurd h hask⟩,
    fun _ => ⟨fun h => absurd h hrej, precedes_of_isEnding hn⟩⟩

/-- In every run from a fresh state, what follows a review is a redo exactly if what is put back contains an id of the
plan. -/
theorem redo_follows_iff {cfg : Settings} {s : OrchestratorState} {tr : List Event} {c c' : Config}
    {plan : ExecutionPlan} {completed : Dict String SubtaskResult} {r : ReviewResult} (h0 : Fresh s)
    (hr : Exec (Step cfg) (start s) tr c) (hs : Step cfg c (.review completed r) c') (hp : c.state.plan = some plan) :
    RedoFollows cfg r c' ↔ PutsBack cfg plan c'.state r := by
  have hat := at_of_exec h0 hr
  have hat' := hat.step hs.fires
  cases hs.fires with
  | review _ hn =>
    cases hat with
    | review hsound hd =>
      obtain rfl := hsound.plan_unique hp
      have hsound' := hsound.review hd r
      cases reviewed_of_route (r := r) rfl hn with
      | escalate hask => exact redoFollows_asked hat' hsound' rfl hd hask
      | redo hh ha hc => exact redoFollows_rejected hsound' rfl hd ⟨ha, hh, hc⟩
      | notify hh ha _ => exact redoFollows_approved rfl ha hh
      | accept hh ha _ => exact redoFollows_approved rfl ha hh

/-- A plan with one subtask, which is done and rejected. -/
private def rejectOnce (subtasksToRedo : List String) : List Reply :=
  [.intake "t" none, .plan (samplePlan [sampleSubtask "a" []]), .none, .results (sampleResult true), .none,
    .review (sampleReview false subtasksToRedo)]

/-- The reviewer names the subtask, which is run again. -/
theorem rejected_then_redone : ∃ tr c, Exec (Step Settings.default) (start sampleStart) tr c ∧
    c.next = .node .applyReviewFeedback ∧ RedoFollows Settings.default (sampleReview false ["a"]) c := by
  have hscript : scriptEnds (step Settings.default) (start sampleStart)
      ((rejectOnce ["a"]).dropLast) (fun _ c => decide (c.next = .node .review) &&
        decide (c.state.plan = some (samplePlan [sampleSubtask "a" []])) &&
        decide (c.state.reviewCycles = 0)) = true := by decide +kernel
  obtain ⟨tr, ⟨s, next⟩, hr, hp⟩ := exec_of_scriptEnds hscript
  simp only [Bool.and_eq_true, decide_eq_true_eq] at hp
  obtain ⟨⟨rfl, hplan⟩, hcycles⟩ := hp
  have hroute : routeAfterReview Settings.default (s.apply (review (sampleReview false ["a"]) s)) =
      .ok (.node .applyReviewFeedback) := by
    unfold routeAfterReview
    simp [review, hcycles, sampleReview, Settings.default, require, bind, Except.bind, pure, Except.pure]
  have hstep := (Fires.review (sampleReview false ["a"]) hroute).step
  refine ⟨_, _, hr.snoc hstep, rfl, (redo_follows_iff fresh_sampleStart hr hstep hplan).2 ⟨fun _ => ?_, fun _ => ?_⟩⟩
  · exact ⟨"a", by simp [sampleReview], by decide⟩
  · exact ⟨"a", by simp [redoIds, sampleReview], by decide⟩

/-- The last steps of a run that is back at the reviewer with the same results. -/
private def isRepeated (events : List Event) (c : Config) : Bool :=
  match events with
  | [.review completed r, .applyReviewFeedback _, .routeBatch] =>
    decide (c.next = .node .review) && decide (c.state.completed = completed) && decide (r = sampleReview false []) &&
      decide (c.state.reviewCycles = 1)
  | _ => false

/-- The reviewer rejects without naming a subtask, and the same results are reviewed again. -/
theorem rejected_then_reviewed_again : ∃ pre completed r update c,
    Exec (Step Settings.default) (start sampleStart)
      (pre ++ [.review completed r, .applyReviewFeedback update, .routeBatch]) c ∧
    AtReview c ∧ c.state.completed = completed ∧ r = sampleReview false [] ∧
    (c.state.reviewCycles : Int) < Settings.default.maxReviewCycles := by
  have hscript : scriptEnds (step Settings.default) (start sampleStart) (rejectOnce [] ++ [.none, .none])
      (fun tr c => isRepeated (tr.drop 5) c) = true := by decide +kernel
  obtain ⟨tr, c, hr, hp⟩ := exec_of_scriptEnds hscript
  unfold isRepeated at hp
  split at hp
  · rename_i completed r update htr
    simp only [Bool.and_eq_true, decide_eq_true_eq] at hp
    obtain ⟨⟨⟨hn, hcompleted⟩, hreview⟩, hcycles⟩ := hp
    refine ⟨tr.take 5, completed, r, update, c, ?_, hn, hcompleted, hreview, ?_⟩
    · rw [← htr, List.take_append_drop]
      exact hr
    · rw [hcycles]
      decide
  · exact absurd hp (by simp)

end AgentOrchestrator
