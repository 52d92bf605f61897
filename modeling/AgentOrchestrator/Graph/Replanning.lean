import AgentOrchestrator.Graph.Invariant

/-!
# A new plan starts clean

The `{}` that `plan_task` returns for `completed` and `retry_counts` is merged and deletes nothing, and it does not
mention the feedback at all.  What keeps an earlier plan out is the rest of the graph: the way back to `plan_task` is
open before any work only.  Feedback is written after a review or together with a retry count (`Belongs`), so there is
none as long as there are neither, and `plan_task` finds the state of a fresh run (`replanning_clean`).
-/

namespace AgentOrchestrator

/-- What is stored belongs to the plan in force, or to nothing. -/
structure Belongs (s : OrchestratorState) : Prop where
  feedback : s.review = none → ∀ sid text, s.subtaskFeedback.get? sid = some text →
    ∃ n, s.retryCounts.get? sid = some n
  completed : ∀ sid ∈ s.completed.keys, ∃ plan, s.plan = some plan ∧ sid ∈ planIds plan

theorem Pristine.completed_keys {s : OrchestratorState} (h : Pristine s) :
    ∀ sid ∈ s.completed.keys, ∃ plan, s.plan = some plan ∧ sid ∈ planIds plan := by
  intro sid hsid
  rw [h.completed] at hsid
  exact absurd hsid List.not_mem_nil

theorem Sound.completed_keys {plan : ExecutionPlan} {s : OrchestratorState} (h : Sound plan s) :
    ∀ sid ∈ s.completed.keys, ∃ plan, s.plan = some plan ∧ sid ∈ planIds plan := by
  intro sid hsid
  obtain ⟨result, hr⟩ := Dict.mem_keys_iff.1 hsid
  exact ⟨plan, h.plan_eq, h.mem_planIds sid result hr⟩

/-- Until the end the invariant says whose results are stored. -/
theorem At.completed_keys {cfg : Settings} {s : OrchestratorState} {n : Next} (h : At cfg s n) (hn : n ≠ .finish) :
    ∀ sid ∈ s.completed.keys, ∃ plan, s.plan = some plan ∧ sid ∈ planIds plan := by
  cases h with
  | intake hp => exact hp.completed_keys
  | planTask hp => exact hp.completed_keys
  | routeBatch hs => exact hs.completed_keys
  | send hs _ _ _ => exact hs.completed_keys
  | review hs _ => exact hs.completed_keys
  | applyReviewFeedback hs _ => exact hs.completed_keys
  | notifyHuman hs _ _ => exact hs.completed_keys
  | synthesize hs => exact hs.completed_keys
  | deliver hs => exact hs.completed_keys
  | rejectTask hs => exact hs.completed_keys
  | humanEscalation hs _ => exact hs.completed_keys
  | applyHumanDecision hs _ _ => exact hs.completed_keys
  | finish => exact absurd rfl hn

theorem completed_keys_of_step {cfg : Settings} {c c' : Config} {e : Event} (hat : At cfg c.state c.next)
    (hf : Fires cfg c e c') : ∀ sid ∈ c'.state.completed.keys, ∃ plan, c'.state.plan = some plan ∧ sid ∈ planIds plan := by
  by_cases hn : c'.next = .finish
  · rcases hat.finishes hf hn with ⟨hnext, -, hs⟩ | ⟨hnext, -, hs⟩
    · rw [hs]
      exact hat.completed_keys (by simp [hnext])
    · rw [hs]
      exact hat.completed_keys (by simp [hnext])
  · exact (hat.step hf).completed_keys hn

/-- Writing numbers under some ids keeps the other retry counts. -/
theorem exists_retryCount_merge {left : Dict String Nat} {ids : List String} {sid : String} {n m : Nat}
    (h : left.get? sid = some n) : ∃ n', (mergeOptionalDict left (Dict.ofKeys ids fun _ => some m)).get? sid = some n' := by
  rw [get?_merge_ofKeys]
  split
  · exact ⟨m, rfl⟩
  · exact ⟨n, h⟩

/-- No step deletes a retry count. -/
theorem exists_retryCount_of_step {cfg : Settings} {c c' : Config} {e : Event} {sid : String} {n : Nat}
    (hat : At cfg c.state c.next) (hf : Fires cfg c e c') (h : c.state.retryCounts.get? sid = some n) :
    ∃ n', c'.state.retryCounts.get? sid = some n' := by
  cases hf with
  | specialists result hb =>
    obtain ⟨plan, -, -, -, heff⟩ := hat.dispatched hb
    rw [heff.retryCounts]
    split
    · exact ⟨_, rfl⟩
    · exact ⟨n, h⟩
  | applyReviewFeedback hu =>
    obtain ⟨r, -, rfl⟩ := update_of_applyReviewFeedback hu
    exact ⟨n, h⟩
  | notifyHuman hu =>
    obtain ⟨escalation, rfl⟩ := update_of_notifyHuman hu
    exact ⟨n, h⟩
  | deliver memory hu =>
    obtain rfl := update_of_deliver hu
    exact ⟨n, h⟩
  | applyHumanDecision hd hs hu hn =>
    obtain ⟨plan, escalation, -, -, -, hdecided⟩ := hat.decided hd hs hu hn
    cases hdecided with
    | guide _ _ => exact exists_retryCount_merge h
    | retry _ _ => exact exists_retryCount_merge h
    | _ => exact ⟨n, h⟩
  | _ => exact ⟨n, h⟩

/-- Where feedback is written there is a review, or a retry count for the subtask. -/
theorem feedback_of_step {cfg : Settings} {c c' : Config} {e : Event} {sid text : String}
    (hat : At cfg c.state c.next) (hf : Fires cfg c e c') (hnone : c'.state.review = none)
    (h : c'.state.subtaskFeedback.get? sid = some text) :
    c.state.review = none ∧ (c.state.subtaskFeedback.get? sid = some text ∨
      ∃ n, c'.state.retryCounts.get? sid = some n) := by
  cases hf with
  | specialists result hb =>
    obtain ⟨plan, -, -, -, heff⟩ := hat.dispatched hb
    rw [heff.frame] at hnone h
    exact ⟨hnone, Or.inl h⟩
  | review result _ => exact absurd hnone (by simp [review])
  | applyReviewFeedback hu =>
    obtain ⟨r, hr, rfl⟩ := update_of_applyReviewFeedback hu
    exact absurd (hr.symm.trans hnone) (by simp)
  | notifyHuman hu =>
    obtain ⟨escalation, rfl⟩ := update_of_notifyHuman hu
    exact ⟨hnone, Or.inl h⟩
  | deliver memory hu =>
    obtain rfl := update_of_deliver hu
    exact ⟨hnone, Or.inl h⟩
  | applyHumanDecision hd hs hu hn =>
    obtain ⟨plan, escalation, -, -, -, hdecided⟩ := hat.decided hd hs hu hn
    cases hdecided with
    | guide _ _ =>
      refine ⟨hnone, ?_⟩
      have htext := (get?_merge_ofKeys _ _ _ sid).symm.trans h
      split at htext
      · -- a stuck subtask, whose retry count is set to zero
        rename_i hsid
        exact Or.inr ⟨0, (get?_merge_ofKeys _ _ _ sid).trans (if_pos hsid)⟩
      · exact Or.inl htext
    | redo _ _ _ hr _ => exact absurd (hr.symm.trans hnone) (by simp)
    | _ => exact ⟨hnone, Or.inl h⟩
  | _ => exact ⟨hnone, Or.inl h⟩

theorem Belongs.step {cfg : Settings} {c c' : Config} {e : Event} (h : Belongs c.state) (hat : At cfg c.state c.next)
    (hf : Fires cfg c e c') : Belongs c'.state := by
  refine ⟨fun hnone sid text htext => ?_, completed_keys_of_step hat hf⟩
  obtain ⟨hnone', hold | hnew⟩ := feedback_of_step hat hf hnone htext
  · obtain ⟨n, hn⟩ := h.feedback hnone' sid text hold
    exact exists_retryCount_of_step hat hf hn
  · exact hnew

theorem belongs_of_exec {cfg : Settings} {s : OrchestratorState} {tr : List Event} {c : Config} (h0 : Fresh s)
    (hr : Exec (Step cfg) (start s) tr c) : Belongs c.state := by
  have hstart : Belongs (start s).state := by
    refine ⟨fun _ sid text htext => ?_, fun sid hsid => ?_⟩
    · have hnone : (start s).state.subtaskFeedback = ∅ := h0.subtaskFeedback
      rw [hnone] at htext
      exact absurd htext (by simp)
    · have hnone : (start s).state.completed = ∅ := h0.completed
      rw [hnone] at hsid
      exact absurd hsid List.not_mem_nil
  refine (hr.stateInvariant (fun c => At cfg c.state c.next ∧ Belongs c.state) ⟨at_start h0, hstart⟩ ?_).2
  rintro c e c' ⟨hat, hb⟩ hs
  exact ⟨hat.step hs.fires, hb.step hat hs.fires⟩

/-- Without retry counts and without a review there is no feedback. -/
theorem Belongs.fresh {s : OrchestratorState} (h : Belongs s) (hp : Pristine s) : Fresh s := by
  refine ⟨hp.completed, hp.retryCounts, ?_, hp.review⟩
  refine Dict.eq_empty_of_isEmpty (Dict.isEmpty_iff.2 fun sid => ?_)
  rw [Option.eq_none_iff_forall_ne_some]
  intro text htext
  obtain ⟨n, hn⟩ := h.feedback hp.review sid text htext
  rw [hp.retryCounts] at hn
  exact absurd hn (by simp)

/-- In every run from a fresh state `plan_task` starts from, and leaves, a state without results, retry counts,
feedback or a review, and at any time the results are results for ids of the plan in force. -/
theorem replanning_clean {cfg : Settings} {s : OrchestratorState} {tr : List Event} {c : Config} (h0 : Fresh s)
    (hr : Exec (Step cfg) (start s) tr c) :
    (c.next = .node .planTask → Fresh c.state ∧ ∀ e c', Step cfg c e c' → Fresh c'.state) ∧
      ∀ sid ∈ c.state.completed.keys, ∃ plan, c.state.plan = some plan ∧ sid ∈ planIds plan := by
  have hbelongs := belongs_of_exec h0 hr
  refine ⟨fun hn => ?_, hbelongs.completed⟩
  have hat := at_of_exec h0 hr
  rw [hn] at hat
  have hfresh : Fresh c.state := by
    cases hat with
    | planTask hp => exact hbelongs.fresh hp
  refine ⟨hfresh, fun e c' hs => ?_⟩
  cases hs.fires with
  | planTask plan _ => exact ⟨hfresh.completed, hfresh.retryCounts, hfresh.subtaskFeedback, hfresh.review⟩
  | _ => exact absurd hn (by simp)

/-- A human has the plan made again. -/
theorem replanned_clean : ∃ tr c, Exec (Step Settings.default) (start sampleStart) tr c ∧
    c.next = .node .planTask ∧ c.state.plan = some sensitivePlan ∧ Fresh c.state := by
  have hscript : scriptEnds (step Settings.default) (start sampleStart)
      [.intake "t" none, .plan sensitivePlan, .decision { action := .modify, feedback := some "Shorter." }, .none]
      (fun _ c => decide (c.next = .node .planTask) && decide (c.state.plan = some sensitivePlan)) = true := by
    decide +kernel
  obtain ⟨tr, c, hr, hp⟩ := exec_of_scriptEnds hscript
  simp only [Bool.and_eq_true, decide_eq_true_eq] at hp
  obtain ⟨hn, hplan⟩ := hp
  exact ⟨tr, c, hr, hn, hplan, ((replanning_clean fresh_sampleStart hr).1 hn).1⟩

end AgentOrchestrator
