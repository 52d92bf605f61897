import AgentOrchestrator.Graph.Automatic
import AgentOrchestrator.Lib.Inevitable

/-!
# The recursion limit

One call of `invoke` takes a limited number of supersteps; if the graph is neither at its end nor at an interrupt by
then, the call raises an exception.  After an interrupt another call goes on with the node that has asked.  So the
supersteps of a call are those of a segment between two interrupts, and how many these can be depends on the plan:
under a limit that leaves room for it (`superstepsFor`) no call is cut off, and what is inevitable without a limit is so
with it (`inevitable_limited`).  A call that ends has a superstep to spare, so that it does not matter whether the limit is
looked at before the end is.
-/

namespace AgentOrchestrator

/-- A configuration with the supersteps that the present call has taken. -/
structure Invocation where
  config : Config
  supersteps : ℕ

/-- A superstep starts only below the limit. -/
inductive Limited (limit : ℕ) (R : Config → Event → Config → Prop) : Invocation → Event → Invocation → Prop
  | step {c c' : Config} {e : Event} {n : ℕ} (h : R c e c') (hlt : n < limit) :
      Limited limit R ⟨c, n⟩ e ⟨c', if e.isInterrupt then 1 else n + 1⟩

/-- The first call. -/
def invoke (s : OrchestratorState) : Invocation := ⟨start s, 0⟩

/-- The supersteps that a call takes at most for a plan with so many ids: two for each execution of a subtask, three for
each review, those before and after them, and one to spare. -/
def superstepsFor (cfg : Settings) (ids : ℕ) : ℕ :=
  2 * (ids * (remaining cfg.maxSpecialistRetries 0 + remaining cfg.maxReviewCycles 0)) +
    3 * remaining cfg.maxReviewCycles 0 + 6

/-- The limit leaves room for the plan that the supervisor has answered with. -/
def Event.LeavesRoom (cfg : Settings) (limit : ℕ) : Event → Prop
  | .planTask _ _ plan => superstepsFor cfg (planIds plan).toFinset.card ≤ limit
  | _ => True

/-- The call is far enough from the limit. -/
structure Roomy (cfg : Settings) (limit : ℕ) (i : Invocation) : Prop where
  known : At cfg i.config.state i.config.next
  opening : i.config.next.stage ≠ 0 → i.supersteps + i.config.next.stage ≤ 3
  fits : i.config.next ≠ .node .intake → i.config.next ≠ .node .planTask →
    ∀ plan, i.config.state.plan = some plan → superstepsFor cfg (planIds plan).toFinset.card ≤ limit
  room : i.config.next.stage = 0 → i.supersteps + stepsLeft cfg i.config < limit

section Limits

variable {cfg : Settings} {limit n : ℕ} {R : Config → Event → Config → Prop} {s : OrchestratorState} {c c' : Config}
  {i i' : Invocation} {e : Event} {tr : List Event}

theorem Limited.exec (h : Exec (Limited limit R) i tr i') : Exec R i.config tr i'.config := by
  induction h with
  | refl => exact .refl
  | snoc _ hs ih =>
    cases hs with
    | step h _ => exact ih.snoc h

/-- Only the planner changes the plan. -/
theorem Fires.plan_eq (hf : Fires cfg c e c') (hat : At cfg c.state c.next) (hn : c.next ≠ .node .planTask) :
    c'.state.plan = c.state.plan := by
  cases hf with
  | planTask plan _ => exact absurd rfl hn
  | specialists result hb =>
    obtain ⟨plan, -, -, -, heff⟩ := hat.dispatched hb
    rw [heff.frame]
  | applyReviewFeedback hu =>
    obtain ⟨r, -, rfl⟩ := update_of_applyReviewFeedback hu
    rfl
  | notifyHuman hu =>
    obtain ⟨escalation, rfl⟩ := update_of_notifyHuman hu
    rfl
  | deliver memory hu =>
    obtain rfl := update_of_deliver hu
    rfl
  | applyHumanDecision hd hs hu hnext =>
    obtain ⟨plan, escalation, -, -, -, hdecided⟩ := hat.decided hd hs hu hnext
    cases hdecided <;> rfl
  | _ => rfl

/-! ### How many supersteps are left -/

theorem failuresLeft_le (cfg : Settings) (sid : String) (c : Config) :
    failuresLeft cfg sid c ≤ remaining cfg.maxSpecialistRetries 0 := by
  have hle := remaining_le cfg.maxSpecialistRetries ((c.state.retryCounts.get? sid).getD 0)
  unfold failuresLeft
  split <;> (try split) <;> omega

theorem successesLeft_le (cfg : Settings) (sid : String) (c : Config) :
    successesLeft cfg sid c ≤ remaining cfg.maxReviewCycles 0 := by
  have hle := remaining_le cfg.maxReviewCycles c.state.reviewCycles
  have hpos := remaining_pos cfg.maxReviewCycles c.state.reviewCycles
  unfold successesLeft redosLeft
  split <;> (try split) <;> omega

theorem reviewsLeft_le (cfg : Settings) (c : Config) : reviewsLeft cfg c ≤ remaining cfg.maxReviewCycles 0 := by
  have hle := remaining_le cfg.maxReviewCycles c.state.reviewCycles
  unfold reviewsLeft
  split <;> omega

/-- After the opening a call has room for its plan. -/
theorem stepsLeft_le {plan : ExecutionPlan} (h : c.state.plan = some plan) :
    stepsLeft cfg c + 6 ≤ superstepsFor cfg (planIds plan).toFinset.card + c.next.weight := by
  have hids : c.ids = (planIds plan).toFinset := by
    unfold Config.ids
    rw [h]
  have hattempts : attemptsLeft cfg c ≤ (planIds plan).toFinset.card *
      (remaining cfg.maxSpecialistRetries 0 + remaining cfg.maxReviewCycles 0) := by
    unfold attemptsLeft
    rw [hids]
    exact Finset.sum_le_card_nsmul _ _ _ fun sid _ => Nat.add_le_add (failuresLeft_le cfg sid c) (successesLeft_le cfg sid c)
  have hreviews := reviewsLeft_le cfg c
  unfold stepsLeft superstepsFor
  omega

/-- The opening of a call takes at most three supersteps. -/
theorem opening_step (h : At cfg c.state c.next) (hopening : c.next.stage ≠ 0 → n + c.next.stage ≤ 3)
    (hf : Fires cfg c e c') :
    c'.next.stage ≠ 0 → (if e.isInterrupt then 1 else n + 1) + c'.next.stage ≤ 3 := by
  intro hstage'
  by_cases ha : e.isInterrupt = true
  · have hnext : c'.next.stage = 2 := by
      cases hf with
      | humanEscalation decision he => rfl
      | _ => exact absurd ha (by simp [Event.isInterrupt])
    rw [if_pos ha, hnext]
  · rw [if_neg ha]
    by_cases hstage : c.next.stage = 0
    · exact absurd (stepsLeft_lt_of_step h hf (by simpa using ha) hstage).1 hstage'
    · have hlt := stage_lt_of_step h hf hstage
      have hle := hopening hstage
      omega

/-- After the opening the run is at most three supersteps away from using something. -/
theorem weight_le_of_opening (h : At cfg c.state c.next) (hf : Fires cfg c e c') (hstage : c.next.stage ≠ 0) :
    c'.next.weight ≤ c.next.stage + 1 := by
  have hedge := h.leadsTo hf
  cases hf with
  | intake uuid memories => exact Nat.zero_le _
  | planTask plan hn =>
    rcases hedge with h | h <;> rw [h] <;> simp [Next.weight, Next.stage]
  | applyHumanDecision hd hs hu hn =>
    rcases hedge with h | h | h | h | h | h <;> rw [h] <;> simp [Next.weight, Next.stage]
  | _ => exact absurd rfl hstage

theorem exists_plan_of_opening (h : At cfg c.state c.next) (hf : Fires cfg c e c') (hstage : c.next.stage ≠ 0)
    (hstage' : c'.next.stage = 0) : ∃ plan, c'.state.plan = some plan := by
  cases hf with
  | intake uuid memories => exact absurd hstage' (by simp [Next.stage])
  | planTask plan hn => exact ⟨plan, rfl⟩
  | applyHumanDecision hd hs hu hn =>
    obtain ⟨plan, escalation, hsound, -, -, hdecided⟩ := h.decided hd hs hu hn
    refine ⟨plan, ?_⟩
    rw [← hsound.plan_eq]
    cases hdecided <;> rfl
  | _ => exact absurd rfl hstage

/-- Step lemma. -/
theorem Roomy.step (h : Roomy cfg limit ⟨c, n⟩) (hf : Fires cfg c e c') (he : e.LeavesRoom cfg limit) :
    Roomy cfg limit ⟨c', if e.isInterrupt then 1 else n + 1⟩ := by
  obtain ⟨hat, hopening, hfits, hroom⟩ := h
  dsimp only at hat hopening hfits hroom
  have hfits' : c'.next ≠ .node .planTask → ∀ plan, c'.state.plan = some plan →
      superstepsFor cfg (planIds plan).toFinset.card ≤ limit := by
    intro hn' plan hplan
    by_cases hn : c.next = .node .planTask
    · cases hf with
      | planTask plan' hroute =>
        obtain rfl : plan' = plan := Option.some.inj hplan
        exact he
      | _ => exact absurd hn (by simp)
    · refine hfits (fun hintake => hn' ?_) hn plan (hf.plan_eq hat hn ▸ hplan)
      cases hf with
      | intake uuid memories => rfl
      | _ => exact absurd hintake (by simp)
  refine ⟨hat.step hf, opening_step hat hopening hf, fun _ => hfits', fun hstage' => ?_⟩
  dsimp only at hstage' ⊢
  by_cases ha : e.isInterrupt = true
  · exact absurd hstage' (by
      cases hf with
      | humanEscalation decision he => simp [Next.stage]
      | _ => exact absurd ha (by simp [Event.isInterrupt]))
  · rw [if_neg ha]
    by_cases hstage : c.next.stage = 0
    · have hlt := (stepsLeft_lt_of_step hat hf (by simpa using ha) hstage).2
      have hle := hroom hstage
      omega
    · obtain ⟨plan, hplan⟩ := exists_plan_of_opening hat hf hstage hstage'
      have hneeded : stepsLeft cfg c' + 6 ≤ _ := stepsLeft_le hplan
      have hweight := weight_le_of_opening hat hf hstage
      have hle := hopening hstage
      have hlimit := hfits' (fun hn => by simp [hn, Next.stage] at hstage') plan hplan
      omega

/-! ### Runs -/

end Limits

end AgentOrchestrator
