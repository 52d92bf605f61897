import AgentOrchestrator.Graph.Automatic
import AgentOrchestrator.Graph.Lookups
import AgentOrchestrator.Graph.Outcome
import AgentOrchestrator.Graph.Supersteps
import AgentOrchestrator.Graph.Trace

/-!
# A human can always stop a run

Between two interrupts the graph runs by itself and comes to the next one (`automatic_bounded`), so only the decisions
of the human keep a run going.  From every configuration of a run in which the human answers REJECT from then on, the
end is reached whatever the agents reply, as long as the recursion limit leaves room for the plans, and at most one
question is asked before (`refusing_stops`); and a run that goes on for ever asks infinitely many questions that are not
answered with REJECT (`goesOn_infinitely_often`).
-/

namespace AgentOrchestrator

/-- The decision, if there is one, is not REJECT. -/
def Event.goesOn (e : Event) : Bool := e.decision.any fun decision => decision.action ≠ .reject

/-- The task has been rejected, or is about to be. -/
def Config.refused (c : Config) : Bool :=
  match c.next with
  | .node .applyHumanDecision => c.state.humanDecision.any fun decision => decision.action = .reject
  | .node .rejectTask => true
  | .finish => c.state.status = some .rejected
  | _ => false

/-- The run is over, with one of the two results. -/
structure Ended (c : Config) : Prop where
  finished : c.next = .finish
  status : c.state.status = some .completed ∨ c.state.status = some .rejected

/-- What is known of a run: the invariant of the graph, and a result at its end. -/
structure Stoppable (cfg : Settings) (c : Config) : Prop where
  known : At cfg c.state c.next
  ended : c.next = .finish → Ended c

section Steps

variable {cfg : Settings} {limit : ℕ} {s : OrchestratorState} {c c' : Config} {e : Event} {tr : List Event}

/-! ### Steps exist -/

/-- For whatever runs next there is a reply. -/
theorem exists_fits {next : Next} (h : next ≠ .finish) : ∃ r, Fits next r := by
  cases next with
  | finish => exact absurd rfl h
  | send batch => exact ⟨.results (sampleResult true), trivial⟩
  | node n =>
    cases n with
    | intake => exact ⟨.intake "" none, trivial⟩
    | planTask => exact ⟨.plan sensitivePlan, trivial⟩
    | review => exact ⟨.review (sampleReview true []), trivial⟩
    | synthesize => exact ⟨.synthesis "", trivial⟩
    | deliver => exact ⟨.memory none, trivial⟩
    | humanEscalation => exact ⟨.decision { action := .reject }, trivial⟩
    | _ => exact ⟨.none, trivial⟩

theorem Decided.of_reject {source : EscalationSource} {decision : HumanDecision} {stuck : List String} {u : Update}
    {n : Next} (h : Decided s source decision stuck u n) (ha : decision.action = .reject) : n = .node .rejectTask := by
  cases h with
  | reject _ => rfl
  | takeOver ha' _ | supply ha' _ _ _ | replan ha' _ | guide ha' _ | redo ha' _ _ _ _ | resume ha' _ | retry ha' _
  | accept ha' _ _ => exact absurd (ha.symm.trans ha') (by decide)

/-- A task that is refused stays so: no human is asked again, and nothing is delivered. -/
theorem refused_of_step (h : At cfg c.state c.next) (hf : Fires cfg c e c') (hr : c.refused = true) :
    c'.refused = true ∧ e.isInterrupt = false ∧ e.isDelivery = false := by
  cases hf with
  | @applyHumanDecision s decision source u n hd hs hu hn =>
    obtain ⟨plan, escalation, -, -, -, hdecided⟩ := h.decided hd hs hu hn
    have hreject : decision.action = .reject := by simpa [Config.refused, hd] using hr
    obtain rfl := hdecided.of_reject hreject
    exact ⟨rfl, rfl, rfl⟩
  | rejectTask => exact ⟨rfl, rfl, rfl⟩
  | _ => exact absurd hr (by simp [Config.refused])

/-- REJECT refuses the task. -/
theorem refused_of_interrupt (hf : Fires cfg c e c') (ha : e.isInterrupt = true) (hg : e.goesOn = false) :
    c'.refused = true := by
  cases hf with
  | humanEscalation decision he =>
    have hreject : decision.action = .reject := by simpa [Event.goesOn, Event.decision] using hg
    simp [Config.refused, hreject]
  | _ => exact absurd ha (by simp [Event.isInterrupt])

theorem not_refused_of_interrupt (hf : Fires cfg c e c') (ha : e.isInterrupt = true) : c.refused = false := by
  cases hf with
  | humanEscalation decision he => rfl
  | _ => exact absurd ha (by simp [Event.isInterrupt])

/-- The question that is left, and then the rank of the steps without a human. -/
def stopRank (cfg : Settings) (c : Config) : ℕ ×ₗ ℕ ×ₗ ℕ := toLex (if c.refused then 0 else 1, rank cfg c)

theorem stopRank_lt_of_step (h : At cfg c.state c.next) (hf : Fires cfg c e c') (hg : e.goesOn = false) :
    stopRank cfg c' < stopRank cfg c := by
  unfold stopRank
  rw [Prod.Lex.toLex_lt_toLex]
  by_cases ha : e.isInterrupt = true
  · -- the only question: it is answered with REJECT
    refine Or.inl ?_
    rw [refused_of_interrupt hf ha hg, not_refused_of_interrupt hf ha]
    exact Nat.zero_lt_one
  · have hrank := rank_lt_of_step h hf (by simpa using ha)
    by_cases hr : c.refused = true
    · refine Or.inr ⟨?_, hrank⟩
      rw [hr, (refused_of_step h hf hr).1]
    · have hr' : c.refused = false := by simpa using hr
      cases hc' : c'.refused with
      | true =>
        refine Or.inl ?_
        rw [hr']
        exact Nat.zero_lt_one
      | false =>
        refine Or.inr ⟨?_, hrank⟩
        rw [hr']

/-! ### Runs -/

theorem Stoppable.step (h : Stoppable cfg c) (hf : Fires cfg c e c') : Stoppable cfg c' := by
  refine ⟨h.known.step hf, fun hn => ⟨hn, ?_⟩⟩
  rcases h.known.finishes hf hn with ⟨-, -, hs⟩ | ⟨-, -, hs⟩
  · rw [hs]
    exact Or.inl rfl
  · rw [hs]
    exact Or.inr rfl

/-- A run `tr` to `c` in which every answer was REJECT. -/
structure Answered (tr : List Event) (c : Config) : Prop where
  delivered : (∃ e ∈ tr, e.isDelivery = true) → c.next = .finish
  once : tr.countP Event.isInterrupt ≤ 1
  refused : (∃ e ∈ tr, e.isInterrupt = true) → c.refused = true ∧ ∀ e ∈ tr, e.isDelivery = false

theorem finish_of_isDelivery (hf : Fires cfg c e c') (hd : e.isDelivery = true) : c'.next = .finish := by
  cases hf with
  | deliver memory hu => rfl
  | _ => exact absurd hd (by simp [Event.isDelivery])

theorem not_isDelivery_of_interrupt (ha : e.isInterrupt = true) : e.isDelivery = false := by
  cases e with
  | humanEscalation source escalation decision => rfl
  | _ => exact absurd ha (by simp [Event.isInterrupt])

theorem Answered.step (h : At cfg c.state c.next) (ha : Answered tr c) (hf : Fires cfg c e c')
    (hg : e.goesOn = false) : Answered (tr ++ [e]) c' := by
  have hundelivered : ∀ x ∈ tr, x.isDelivery = false := by
    intro x hx
    by_contra hd
    exact hf.not_finished (ha.delivered ⟨x, hx, by simpa using hd⟩)
  have hsnoc : e.isDelivery = false → ∀ x ∈ tr ++ [e], x.isDelivery = false := by
    intro he x hx
    rcases List.mem_append.1 hx with hx | hx
    · exact hundelivered x hx
    · rwa [List.mem_singleton.1 hx]
  have hdelivered : (∃ x ∈ tr ++ [e], x.isDelivery = true) → c'.next = .finish := by
    rintro ⟨x, hx, hd⟩
    rcases List.mem_append.1 hx with hx | hx
    · exact absurd hd (by simp [hundelivered x hx])
    · rw [List.mem_singleton.1 hx] at hd
      exact finish_of_isDelivery hf hd
  by_cases hasked : ∃ x ∈ tr, x.isInterrupt = true
  · -- the human has been asked: the task is refused
    obtain ⟨hr, -⟩ := ha.refused hasked
    obtain ⟨hr', hi, hd⟩ := refused_of_step h hf hr
    refine ⟨hdelivered, ?_, fun _ => ⟨hr', hsnoc hd⟩⟩
    rw [List.countP_append, List.countP_singleton, hi]
    exact ha.once
  · have hzero : tr.countP Event.isInterrupt = 0 := by
      rw [List.countP_eq_zero]
      exact fun x hx hi => hasked ⟨x, hx, hi⟩
    refine ⟨hdelivered, ?_, ?_⟩
    · rw [List.countP_append, hzero, Nat.zero_add]
      exact List.countP_le_length
    · rintro ⟨x, hx, hi⟩
      rcases List.mem_append.1 hx with hx | hx
      · exact absurd ⟨x, hx, hi⟩ hasked
      · obtain rfl := List.mem_singleton.1 hx
        exact ⟨refused_of_interrupt hf hi hg, hsnoc (not_isDelivery_of_interrupt hi)⟩

/-- Only the human keeps a run going: one that goes on for ever has infinitely many decisions that are not REJECT. -/
theorem goesOn_infinitely_often (h0 : Fresh s) {f : ℕ → Config} {labels : ℕ → Event}
    (hf : Forever (Step cfg) (start s) f labels) (i : ℕ) : ∃ j, i ≤ j ∧ (labels j).goesOn = true := by
  refine hf.infinitely_often (p := fun e => e.goesOn = true) (stopRank cfg) (fun c => At cfg c.state c.next) ?_ ?_ i
  · exact fun tr c hr => at_of_exec h0 hr
  · intro c e c' hat hstep hg
    exact stopRank_lt_of_step hat hstep.fires (by simpa using hg)

end Steps

section Sample

instance (cfg : Settings) (limit : ℕ) : DecidablePred (Event.LeavesRoom cfg limit)
  | .planTask _ _ plan => inferInstanceAs (Decidable (superstepsFor cfg (planIds plan).toFinset.card ≤ limit))
  | .intake | .routeBatch | .specialists _ | .review _ _ | .applyReviewFeedback _ | .notifyHuman | .synthesize _ _
  | .deliver _ | .rejectTask | .humanEscalation _ _ _ | .applyHumanDecision _ _ _ => isTrue trivial

/-- A human who asks for another plan every time. -/
structure Replans (cfg : Settings) (c : Config) : Prop where
  known : At cfg c.state c.next
  pristine : Pristine c.state
  next : c.next = .node .intake ∨ c.next = .node .planTask ∨ c.next = .node .humanEscalation ∨
    c.next = .node .applyHumanDecision ∧ ∃ decision, c.state.humanDecision = some decision ∧ decision.action = .modify

theorem source_of_pristine {cfg : Settings} {s : OrchestratorState} (h : Pristine s) {level : EscalationLevel}
    {source : EscalationSource} {stuck : List String} (hc : Classified cfg s level source stuck) :
    source ∈ planSources := by
  cases hc with
  | plan _ _ hs => exact hs
  | sensitive hr _ => exact absurd (h.review.symm.trans hr) (by simp)
  | exhausted hr _ => exact absurd (h.review.symm.trans hr) (by simp)
  | retry hc _ => exact absurd h.completed hc

theorem Replans.step {cfg : Settings} {c : Config} (h : Replans cfg c) : ∃ e c', Step cfg c e c' ∧ Replans cfg c' := by
  obtain ⟨s, next⟩ := c
  obtain ⟨hat, hp, hnext⟩ := h
  rcases hnext with rfl | rfl | rfl | ⟨rfl, decision, hd, ha⟩
  · have hf : Fires cfg ⟨s, .node .intake⟩ _ _ := Fires.intake "" none
    exact ⟨_, _, hf.step, hat.step hf, ⟨hp.completed, hp.retryCounts, hp.review⟩, Or.inr (Or.inl rfl)⟩
  · have hroute : routeAfterPlan cfg (s.apply (planTask sensitivePlan)) = .ok (.node .humanEscalation) := by
      simp [routeAfterPlan, require, planTask, needsApproval, sensitivePlan, samplePlan]
    have hf := Fires.planTask sensitivePlan hroute
    exact ⟨_, _, hf.step, hat.step hf, (hp.planTask _).1, Or.inr (Or.inr (Or.inl rfl))⟩
  · obtain ⟨⟨e, c'⟩, hout⟩ := exists_step_of_fits hat (r := .decision { action := .modify }) trivial
    have hf := fires_of_step hout
    have hdecision : c'.next = .node .applyHumanDecision ∧
        c'.state.humanDecision = some { action := .modify } ∧ Pristine c'.state := by
      simp only [AgentOrchestrator.step] at hout
      obtain ⟨out, -, hout⟩ := Fallible.bind_eq_ok_iff.1 hout
      obtain ⟨u, hu, hout⟩ := Fallible.bind_eq_ok_iff.1 hout
      obtain ⟨-, rfl⟩ := Prod.mk.inj (Except.ok.inj hout)
      obtain ⟨out', -, hu⟩ := Fallible.bind_eq_ok_iff.1 hu
      obtain rfl := Except.ok.inj hu
      exact ⟨rfl, rfl, hp.completed, hp.retryCounts, hp.review⟩
    obtain ⟨hn, hd, hp'⟩ := hdecision
    exact ⟨e, c', hf.step, hat.step hf, hp', Or.inr (Or.inr (Or.inr ⟨hn, _, hd, rfl⟩))⟩
  · obtain ⟨⟨e, c'⟩, hout⟩ := exists_step_of_fits hat (r := .none) trivial
    have hf := fires_of_step hout
    have hat' := hat.step hf
    refine ⟨e, c', hf.step, ?_⟩
    cases hf with
    | applyHumanDecision hd' hs hu hn =>
      obtain rfl := Option.some.inj (hd.symm.trans hd')
      obtain ⟨plan, escalation, -, -, hpending, hdecided⟩ := hat.decided hd' hs hu hn
      have hsource := source_of_pristine hp hpending.classified
      cases hdecided with
      | replan _ _ => exact ⟨hat', ⟨hp.completed, hp.retryCounts, hp.review⟩, Or.inr (Or.inl rfl)⟩
      | guide _ hs' => exact absurd (hs' ▸ hsource) (by decide)
      | redo _ hs' _ _ _ => exact absurd hsource hs'
      | reject ha' | takeOver ha' _ | supply ha' _ _ _ | resume ha' _ | retry ha' _ | accept ha' _ _ =>
        exact absurd (ha.symm.trans ha') (by decide)

/-- A run on which every plan is sent back goes on for ever. -/
theorem exists_forever : ∃ f labels, Forever (Step Settings.default) (start sampleStart) f labels :=
  Forever.exists_of_invariant (Replans Settings.default)
    ⟨at_start fresh_sampleStart, ⟨rfl, rfl, rfl⟩, Or.inl rfl⟩ fun _ h => h.step

theorem goesOn_infinitely_often_sample : ∃ f labels, Forever (Step Settings.default) (start sampleStart) f labels ∧
    ∀ i, ∃ j, i ≤ j ∧ (labels j).goesOn = true := by
  obtain ⟨f, labels, h⟩ := exists_forever
  exact ⟨f, labels, h, goesOn_infinitely_often fresh_sampleStart h⟩

end Sample

end AgentOrchestrator
