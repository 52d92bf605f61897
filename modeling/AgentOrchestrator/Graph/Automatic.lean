import AgentOrchestrator.Graph.Invariant
import Mathlib.Algebra.Order.BigOperators.Group.Finset
import Mathlib.Data.Prod.Lex

/-!
# Between two interrupts

Between the start or a decision and the next interrupt, or the end, the graph runs by itself.  Two loops share the
counters there: a subtask is retried until its retry count is used up, and a review may send subtasks back until the
review cycles are used up.  What each loop may still use is a function of the configuration (`failuresLeft`,
`successesLeft`, `reviewsLeft`), and every step takes from it what it uses (`spends_of_step`).  So a subtask fails,
succeeds and is reviewed a bounded number of times in a segment, and no segment goes on for ever
(`automatic_bounded`).
-/

namespace AgentOrchestrator

/-! ### What a step uses -/

/-- The executions of `run_specialist` for a subtask that succeed, or fail. -/
def Event.attempts (success : Bool) (sid : String) : Event → ℕ
  | .specialists runs => runs.countP fun run => run.subtask.id = sid ∧ run.result.success = success
  | _ => 0

def Event.reviews : Event → ℕ
  | .review _ _ => 1
  | _ => 0

/-- A human has been asked. -/
def Event.isInterrupt : Event → Bool
  | .humanEscalation _ _ _ => true
  | _ => false

/-- A step without a human. -/
def Automatic (cfg : Settings) (c : Config) (e : Event) (c' : Config) : Prop := Step cfg c e c' ∧ e.isInterrupt = false

/-- Each dispatched subtask is executed once. -/
theorem countP_ran {plan : ExecutionPlan} {s : OrchestratorState} {result : String → SubtaskResult} {ready : List String}
    {runs : List SpecialistRun} (h : List.Forall₂ (Ran plan s result) ready runs) (hn : ready.Nodup) (success : Bool)
    (sid : String) : (runs.countP fun run => run.subtask.id = sid ∧ run.result.success = success) =
      if sid ∈ ready ∧ (result sid).success = success then 1 else 0 := by
  induction h with
  | nil => simp
  | @cons x run ready runs hran _ ih =>
    obtain ⟨hx, hn'⟩ := List.nodup_cons.1 hn
    rw [List.countP_cons, ih hn', hran.id, hran.result]
    by_cases hxs : x = sid
    · subst hxs
      simp [hx]
    · simp [hxs, Ne.symm hxs]

/-! ### What is left -/

/-- What a counter leaves of a limit, but at least one. -/
def remaining (limit : Int) (used : Nat) : ℕ := (max (limit - used) 1).toNat

/-- How far a configuration is from the next interrupt: at the start and after a decision the counters may still be
reset. -/
inductive Period where
  | opening
  | working
  | reviewing
  | redoing
  | closing
deriving DecidableEq

def Next.period : Next → Period
  | .node .intake => .opening
  | .node .planTask => .opening
  | .node .applyHumanDecision => .opening
  | .node .routeBatch => .working
  | .send _ => .working
  | .node .review => .reviewing
  | .node .applyReviewFeedback => .redoing
  | _ => .closing

instance (cfg : Settings) (completed : Dict String SubtaskResult) (retryCounts : Dict String Nat) (sid : String) :
    Decidable (Stuck cfg completed retryCounts sid) :=
  decidable_of_iff
    (∃ result ∈ completed.get? sid, result.success = false ∧
      cfg.maxSpecialistRetries ≤ ((retryCounts.get? sid).getD 0 : Nat)) Iff.rfl

/-- The failures of a subtask before a human is asked. -/
def failuresLeft (cfg : Settings) (sid : String) (c : Config) : ℕ :=
  match c.next.period with
  | .opening => remaining cfg.maxSpecialistRetries 0
  | .working =>
    if Stuck cfg c.state.completed c.state.retryCounts sid then 0
    else remaining cfg.maxSpecialistRetries ((c.state.retryCounts.get? sid).getD 0)
  | .reviewing => remaining cfg.maxSpecialistRetries ((c.state.retryCounts.get? sid).getD 0)
  | .redoing => remaining cfg.maxSpecialistRetries ((c.state.retryCounts.get? sid).getD 0)
  | .closing => 0

/-- How often a review may still send a subtask back. -/
def redosLeft (cfg : Settings) (c : Config) : ℕ := remaining cfg.maxReviewCycles c.state.reviewCycles - 1

/-- The successes of a subtask: one for each time that it may be sent back, and one if it is not done. -/
def successesLeft (cfg : Settings) (sid : String) (c : Config) : ℕ :=
  match c.next.period with
  | .opening => remaining cfg.maxReviewCycles 0
  | .working => redosLeft cfg c + if isDone c.state.completed sid then 0 else 1
  | .reviewing => redosLeft cfg c
  | .redoing => redosLeft cfg c + 1
  | .closing => 0

def reviewsLeft (cfg : Settings) (c : Config) : ℕ :=
  match c.next.period with
  | .opening => remaining cfg.maxReviewCycles 0
  | .closing => 0
  | _ => remaining cfg.maxReviewCycles c.state.reviewCycles

/-- A step takes what it uses from what is left. -/
structure Spends (cfg : Settings) (c : Config) (e : Event) (c' : Config) : Prop where
  failures : ∀ sid, e.attempts false sid + failuresLeft cfg sid c' ≤ failuresLeft cfg sid c
  successes : ∀ sid, e.attempts true sid + successesLeft cfg sid c' ≤ successesLeft cfg sid c
  reviews : e.reviews + reviewsLeft cfg c' ≤ reviewsLeft cfg c

theorem remaining_le (limit : Int) (used : Nat) : remaining limit used ≤ remaining limit 0 := by
  unfold remaining
  omega

theorem remaining_pos (limit : Int) (used : Nat) : 1 ≤ remaining limit used := by
  unfold remaining
  omega

/-- At the start and after a decision everything may still happen. -/
theorem spends_opening {cfg : Settings} {c c' : Config} {e : Event} (h : c.next.period = .opening)
    (ha : ∀ success sid, e.attempts success sid = 0) (hr : e.reviews = 0) : Spends cfg c e c' := by
  have hfailures : ∀ n, remaining cfg.maxSpecialistRetries n ≤ remaining cfg.maxSpecialistRetries 0 := remaining_le _
  have hreviews := remaining_le cfg.maxReviewCycles c'.state.reviewCycles
  have hpos := remaining_pos cfg.maxReviewCycles c'.state.reviewCycles
  refine ⟨fun sid => ?_, fun sid => ?_, ?_⟩
  · have hn := hfailures ((c'.state.retryCounts.get? sid).getD 0)
    rw [ha]
    unfold failuresLeft
    rw [h]
    split <;> (try split) <;> omega
  · rw [ha]
    unfold successesLeft redosLeft
    rw [h]
    split <;> (try split) <;> omega
  · rw [hr]
    unfold reviewsLeft
    rw [h]
    split <;> omega

/-- On the way to the end or to a human nothing is used. -/
theorem spends_closing {cfg : Settings} {c c' : Config} {e : Event} (h : c'.next.period = .closing)
    (ha : ∀ success sid, e.attempts success sid = 0) (hr : e.reviews = 0) : Spends cfg c e c' := by
  refine ⟨fun sid => ?_, fun sid => ?_, ?_⟩
  · rw [ha]
    unfold failuresLeft
    rw [h]
    exact Nat.zero_le _
  · rw [ha]
    unfold successesLeft
    rw [h]
    exact Nat.zero_le _
  · rw [hr]
    unfold reviewsLeft
    rw [h]
    exact Nat.zero_le _

/-- The scheduler finds everything done. -/
theorem spends_finished {cfg : Settings} {plan : ExecutionPlan} {s : OrchestratorState} (h : Sound plan s)
    (hd : AllDone plan s.completed) : Spends cfg ⟨s, .node .routeBatch⟩ .routeBatch ⟨s, .node .review⟩ := by
  have hstuck : ∀ sid, ¬ Stuck cfg s.completed s.retryCounts sid := by
    intro sid hst
    obtain ⟨result, hr, -⟩ := id hst
    exact not_isDone_of_stuck hst (hd sid (h.mem_planIds sid result hr))
  refine ⟨fun sid => ?_, fun sid => ?_, ?_⟩
  · show 0 + remaining _ _ ≤ if Stuck cfg s.completed s.retryCounts sid then 0 else _
    rw [if_neg (hstuck sid), Nat.zero_add]
  · show 0 + redosLeft cfg _ ≤ redosLeft cfg _ + _
    rw [Nat.zero_add]
    exact Nat.le_add_right _ _
  · show 0 + remaining _ _ ≤ remaining _ _
    rw [Nat.zero_add]

section Batches

variable {cfg : Settings} {plan : ExecutionPlan} {s s' : OrchestratorState} {batch : List SendPayload}
  {result : String → SubtaskResult} {sid : String}

/-- A subtask outside of a batch is stuck afterwards if it was before. -/
theorem stuck_iff_of_not_ready (he : BatchEffect s result (scan cfg plan s.completed s.retryCounts).ready s s')
    (hready : sid ∉ (scan cfg plan s.completed s.retryCounts).ready) :
    Stuck cfg s'.completed s'.retryCounts sid ↔ Stuck cfg s.completed s.retryCounts sid := by
  have hresult : s'.completed.get? sid = s.completed.get? sid := by rw [he.completed, if_neg hready]
  have hcount : s'.retryCounts.get? sid = s.retryCounts.get? sid := by rw [he.retryCounts, if_neg hready]
  unfold Stuck
  rw [hresult, hcount]

/-- A subtask of a batch is stuck afterwards if it has failed and its retries are used up. -/
theorem stuck_iff_of_ready (he : BatchEffect s result (scan cfg plan s.completed s.retryCounts).ready s s')
    (hready : sid ∈ (scan cfg plan s.completed s.retryCounts).ready) :
    Stuck cfg s'.completed s'.retryCounts sid ↔ (result sid).success = false ∧
      cfg.maxSpecialistRetries ≤ (((s.retryCounts.get? sid).getD 0 + 1 : Nat) : Int) := by
  have hresult : s'.completed.get? sid = some (result sid) := by rw [he.completed, if_pos hready]
  have hcount := he.retryCounts sid
  rw [if_pos hready] at hcount
  constructor
  · rintro ⟨r, hr, hfail, hmax⟩
    obtain rfl := Option.some.inj (hresult.symm.trans hr)
    rw [hcount, hfail] at hmax
    exact ⟨hfail, hmax⟩
  · rintro ⟨hfail, hmax⟩
    refine ⟨result sid, hresult, hfail, ?_⟩
    rw [hcount, hfail]
    exact hmax

/-- A subtask that fails in a batch has a failure less. -/
theorem failuresLeft_batch (he : BatchEffect s result (scan cfg plan s.completed s.retryCounts).ready s s') :
    (if sid ∈ (scan cfg plan s.completed s.retryCounts).ready ∧ (result sid).success = false then 1 else 0) +
      failuresLeft cfg sid ⟨s', .node .routeBatch⟩ ≤ failuresLeft cfg sid ⟨s, .send batch⟩ := by
  show _ + (if Stuck cfg s'.completed s'.retryCounts sid then 0 else remaining _ _) ≤
    if Stuck cfg s.completed s.retryCounts sid then 0 else remaining _ _
  by_cases hready : sid ∈ (scan cfg plan s.completed s.retryCounts).ready
  · obtain ⟨-, -, hnot, -⟩ := mem_scan_ready.1 hready
    have hcount := he.retryCounts sid
    rw [if_pos hready] at hcount
    have hiff := stuck_iff_of_ready he hready
    rw [if_neg hnot, hcount, Option.getD_some]
    cases hsuccess : (result sid).success with
    | true =>
      have hnot' : ¬ Stuck cfg s'.completed s'.retryCounts sid := fun hst =>
        absurd (hsuccess.symm.trans (hiff.1 hst).1) (by simp)
      rw [if_neg hnot', if_neg (by simp)]
      simp
    | false =>
      -- one failure more: the retry count has grown, or is used up
      rw [if_pos ⟨hready, rfl⟩]
      by_cases hst : Stuck cfg s'.completed s'.retryCounts sid
      · rw [if_pos hst]
        exact remaining_pos _ _
      · have hless : ¬ cfg.maxSpecialistRetries ≤ (((s.retryCounts.get? sid).getD 0 + 1 : Nat) : Int) :=
          fun hmax => hst (hiff.2 ⟨hsuccess, hmax⟩)
        rw [if_neg hst]
        unfold remaining
        simp only [Bool.false_eq_true, if_false]
        omega
  · have hcount : s'.retryCounts.get? sid = s.retryCounts.get? sid := by rw [he.retryCounts, if_neg hready]
    rw [if_neg fun h => hready h.1, Nat.zero_add, hcount]
    simp only [stuck_iff_of_not_ready he hready]
    exact le_refl _

/-- A subtask that succeeds in a batch has a success less. -/
theorem successesLeft_batch (he : BatchEffect s result (scan cfg plan s.completed s.retryCounts).ready s s') :
    (if sid ∈ (scan cfg plan s.completed s.retryCounts).ready ∧ (result sid).success = true then 1 else 0) +
      successesLeft cfg sid ⟨s', .node .routeBatch⟩ ≤ successesLeft cfg sid ⟨s, .send batch⟩ := by
  have hredos : redosLeft cfg ⟨s', .node .routeBatch⟩ = redosLeft cfg ⟨s, .send batch⟩ := by
    unfold redosLeft
    rw [he.frame]
  show _ + (redosLeft cfg ⟨s', .node .routeBatch⟩ + if isDone s'.completed sid then 0 else 1) ≤
    redosLeft cfg ⟨s, .send batch⟩ + if isDone s.completed sid then 0 else 1
  rw [hredos]
  by_cases hready : sid ∈ (scan cfg plan s.completed s.retryCounts).ready
  · obtain ⟨-, hnot, -⟩ := mem_scan_ready.1 hready
    have hdone : isDone s'.completed sid = (result sid).success := by
      unfold isDone
      rw [he.completed, if_pos hready]
    rw [hdone, if_neg hnot]
    cases hsuccess : (result sid).success with
    | true =>
      rw [if_pos ⟨hready, rfl⟩, if_pos rfl]
      omega
    | false =>
      rw [if_neg (by simp), if_neg (by simp)]
      omega
  · have hsame : isDone s'.completed sid = isDone s.completed sid := isDone_congr (by rw [he.completed, if_neg hready])
    rw [if_neg fun h => hready h.1, hsame, Nat.zero_add]

/-- A batch: every subtask of it uses a success or a failure. -/
theorem spends_batch {runs : List SpecialistRun}
    (hran : List.Forall₂ (Ran plan s result) (scan cfg plan s.completed s.retryCounts).ready runs)
    (he : BatchEffect s result (scan cfg plan s.completed s.retryCounts).ready s s') :
    Spends cfg ⟨s, .send batch⟩ (.specialists runs) ⟨s', .node .routeBatch⟩ := by
  have hattempts : ∀ success sid, (Event.specialists runs).attempts success sid = _ :=
    countP_ran hran (nodup_scan_ready cfg plan s.completed s.retryCounts)
  refine ⟨fun sid => ?_, fun sid => ?_, ?_⟩
  · rw [hattempts]
    exact failuresLeft_batch he
  · rw [hattempts]
    exact successesLeft_batch he
  · show 0 + remaining _ s'.reviewCycles ≤ remaining _ s.reviewCycles
    rw [he.frame, Nat.zero_add]

end Batches

/-- A review that sends subtasks back leaves a cycle less. -/
theorem spends_review {cfg : Settings} {s : OrchestratorState} (result : ReviewResult)
    (hc : ¬ cfg.maxReviewCycles ≤ ((s.apply (review result s)).reviewCycles : Int)) :
    Spends cfg ⟨s, .node .review⟩ (.review s.completed result)
      ⟨s.apply (review result s), .node .applyReviewFeedback⟩ := by
  have hcycles : (s.apply (review result s)).reviewCycles = s.reviewCycles + 1 := rfl
  rw [hcycles] at hc
  refine ⟨fun sid => ?_, fun sid => ?_, ?_⟩
  · show 0 + remaining _ _ ≤ remaining _ _
    rw [Nat.zero_add]
    exact le_refl _
  · show 0 + (redosLeft cfg _ + 1) ≤ redosLeft cfg _
    unfold redosLeft remaining
    dsimp only
    rw [hcycles]
    omega
  · show 1 + remaining _ (s.apply (review result s)).reviewCycles ≤ remaining _ s.reviewCycles
    unfold remaining
    rw [hcycles]
    omega

theorem spends_review_closing {cfg : Settings} {s s' : OrchestratorState} {completed : Dict String SubtaskResult}
    {result : ReviewResult} {n : Next} (h : n.period = .closing) :
    Spends cfg ⟨s, .node .review⟩ (.review completed result) ⟨s', n⟩ := by
  refine ⟨fun sid => ?_, fun sid => ?_, ?_⟩
  · unfold failuresLeft
    rw [h]
    exact Nat.zero_le _
  · unfold successesLeft
    rw [h]
    exact Nat.zero_le _
  · have hpos := remaining_pos cfg.maxReviewCycles s.reviewCycles
    unfold reviewsLeft
    rw [h]
    exact hpos

/-- Subtasks are sent back. -/
theorem spends_redo {cfg : Settings} {s : OrchestratorState} {u : Update} (hr : u.retryCounts = ∅)
    (hc : u.reviewCycles = none) (e : Event) (ha : ∀ success sid, e.attempts success sid = 0) (hv : e.reviews = 0) :
    Spends cfg ⟨s, .node .applyReviewFeedback⟩ e ⟨s.apply u, .node .routeBatch⟩ := by
  have hcounts : (s.apply u).retryCounts = s.retryCounts := by simp [hr]
  have hcycles : (s.apply u).reviewCycles = s.reviewCycles := by simp [hc]
  refine ⟨fun sid => ?_, fun sid => ?_, ?_⟩
  · rw [ha, Nat.zero_add]
    show (if _ then 0 else remaining _ _) ≤ remaining _ _
    dsimp only
    rw [hcounts]
    split
    · exact Nat.zero_le _
    · exact le_refl _
  · rw [ha, Nat.zero_add]
    show redosLeft cfg _ + _ ≤ redosLeft cfg _ + 1
    unfold redosLeft
    dsimp only
    rw [hcycles]
    split <;> omega
  · rw [hv, Nat.zero_add]
    show remaining _ (s.apply u).reviewCycles ≤ remaining _ s.reviewCycles
    rw [hcycles]

/-- Every step without a human takes what it uses from what is left. -/
theorem spends_of_step {cfg : Settings} {c c' : Config} {e : Event} (h : At cfg c.state c.next) (hf : Fires cfg c e c')
    (ha : e.isInterrupt = false) : Spends cfg c e c' := by
  cases hf with
  | intake uuid memories => exact spends_opening rfl (fun _ _ => rfl) rfl
  | planTask plan hn => exact spends_opening rfl (fun _ _ => rfl) rfl
  | applyHumanDecision hd hs hu hn => exact spends_opening rfl (fun _ _ => rfl) rfl
  | routeBatch hn =>
    cases h with
    | routeBatch hs =>
      cases decides_of_eq hs.plan_eq hs.mem_planIds hn with
      | stuck _ => exact spends_closing rfl (fun _ _ => rfl) rfl
      | blocked _ _ _ => exact spends_closing rfl (fun _ _ => rfl) rfl
      | review hd => exact spends_finished hs hd
      | batch _ _ => exact ⟨fun _ => (Nat.zero_add _).le, fun _ => (Nat.zero_add _).le, (Nat.zero_add _).le⟩
  | specialists result hb =>
    obtain ⟨plan, -, -, hran, heff⟩ := h.dispatched hb
    exact spends_batch hran heff
  | review result hn =>
    cases reviewed_of_route (r := result) rfl hn with
    | redo _ _ hc => exact spends_review result hc
    | escalate _ => exact spends_review_closing rfl
    | notify _ _ _ => exact spends_review_closing rfl
    | accept _ _ _ => exact spends_review_closing rfl
  | applyReviewFeedback hu =>
    obtain ⟨r, -, rfl⟩ := update_of_applyReviewFeedback hu
    exact spends_redo rfl rfl _ (fun _ _ => rfl) rfl
  | notifyHuman hu => exact spends_closing rfl (fun _ _ => rfl) rfl
  | synthesize text => exact spends_closing rfl (fun _ _ => rfl) rfl
  | deliver memory hu => exact spends_closing rfl (fun _ _ => rfl) rfl
  | rejectTask => exact spends_closing rfl (fun _ _ => rfl) rfl
  | humanEscalation decision he => exact absurd ha (by simp [Event.isInterrupt])

/-! ### Every segment ends -/

/-- The ids of the plan, if there is one. -/
def Config.ids (c : Config) : Finset String :=
  match c.state.plan with
  | some plan => (planIds plan).toFinset
  | none => ∅

/-- The executions of the subtasks that may still come. -/
def attemptsLeft (cfg : Settings) (c : Config) : ℕ := ∑ sid ∈ c.ids, (failuresLeft cfg sid c + successesLeft cfg sid c)

/-- The way of a node to the next one that uses something. -/
def Next.weight : Next → ℕ
  | .node .applyReviewFeedback => 3
  | .node .notifyHuman => 3
  | .node .routeBatch => 2
  | .node .synthesize => 2
  | .send _ => 1
  | .node .review => 1
  | .node .humanEscalation => 1
  | .node .deliver => 1
  | .node .rejectTask => 1
  | _ => 0

/-- The way of a node to a plan that stays. -/
def Next.stage : Next → ℕ
  | .node .intake => 2
  | .node .applyHumanDecision => 2
  | .node .planTask => 1
  | _ => 0

/-- The steps that may still come before a human is asked, once the plan stays: two for a batch, which executes a subtask,
and three for a review. -/
def stepsLeft (cfg : Settings) (c : Config) : ℕ := 2 * attemptsLeft cfg c + 3 * reviewsLeft cfg c + c.next.weight

def rank (cfg : Settings) (c : Config) : ℕ ×ₗ ℕ := toLex (c.next.stage, stepsLeft cfg c)

theorem Spends.attemptsLeft_le {cfg : Settings} {c c' : Config} {e : Event} (h : Spends cfg c e c')
    (hp : c'.state.plan = c.state.plan) :
    ∑ sid ∈ c.ids, (e.attempts false sid + e.attempts true sid) + attemptsLeft cfg c' ≤ attemptsLeft cfg c := by
  have hids : c'.ids = c.ids := by
    unfold Config.ids
    rw [hp]
  unfold attemptsLeft
  rw [hids, ← Finset.sum_add_distrib]
  refine Finset.sum_le_sum fun sid _ => ?_
  have hfailures := h.failures sid
  have hsuccesses := h.successes sid
  omega

/-- A step after the opening is on its way, or uses something. -/
theorem stepsLeft_lt_of_spends {cfg : Settings} {c c' : Config} {e : Event} (h : Spends cfg c e c')
    (hp : c'.state.plan = c.state.plan)
    (hw : c'.next.weight < c.next.weight +
      2 * ∑ sid ∈ c.ids, (e.attempts false sid + e.attempts true sid) + 3 * e.reviews) :
    stepsLeft cfg c' < stepsLeft cfg c := by
  have hattempts := h.attemptsLeft_le hp
  have hreviews := h.reviews
  unfold stepsLeft
  omega

/-- A batch executes a subtask of the plan. -/
theorem attempts_pos {cfg : Settings} {plan : ExecutionPlan} {s : OrchestratorState} (h : Sound plan s)
    {result : String → SubtaskResult} {runs : List SpecialistRun} {n : Next}
    (hready : (scan cfg plan s.completed s.retryCounts).ready ≠ [])
    (hran : List.Forall₂ (Ran plan s result) (scan cfg plan s.completed s.retryCounts).ready runs) :
    0 < ∑ sid ∈ (⟨s, n⟩ : Config).ids,
      ((Event.specialists runs).attempts false sid + (Event.specialists runs).attempts true sid) := by
  obtain ⟨sid, hsid⟩ := List.exists_mem_of_ne_nil _ hready
  have hmem : sid ∈ (⟨s, n⟩ : Config).ids := by
    unfold Config.ids
    rw [h.plan_eq]
    exact List.mem_toFinset.2 (mem_scan_ready.1 hsid).1
  have hattempts : ∀ success, (Event.specialists runs).attempts success sid = _ := fun success =>
    countP_ran hran (nodup_scan_ready cfg plan s.completed s.retryCounts) success sid
  refine Finset.sum_pos' (fun _ _ => Nat.zero_le _) ⟨sid, hmem, ?_⟩
  rw [hattempts, hattempts]
  cases hsuccess : (result sid).success with
  | true => simp [hsid]
  | false => simp [hsid]

/-- Along an edge that uses nothing the way gets shorter. -/
theorem stepsLeft_lt_of_weight {cfg : Settings} {c c' : Config} {e : Event} (h : Spends cfg c e c')
    (hp : c'.state.plan = c.state.plan) (hw : c'.next.weight < c.next.weight) : stepsLeft cfg c' < stepsLeft cfg c :=
  stepsLeft_lt_of_spends h hp (Nat.lt_add_right _ (Nat.lt_add_right _ hw))

/-- Once the plan stays, every step is one less that is left. -/
theorem stepsLeft_lt_of_step {cfg : Settings} {c c' : Config} {e : Event} (h : At cfg c.state c.next)
    (hf : Fires cfg c e c') (ha : e.isInterrupt = false) (hs : c.next.stage = 0) :
    c'.next.stage = 0 ∧ stepsLeft cfg c' < stepsLeft cfg c := by
  have hspends := spends_of_step h hf ha
  cases hf with
  | intake uuid memories => exact absurd hs (by simp [Next.stage])
  | planTask plan hn => exact absurd hs (by simp [Next.stage])
  | applyHumanDecision hd hs' hu hn => exact absurd hs (by simp [Next.stage])
  | routeBatch hn =>
    cases h with
    | routeBatch hs =>
      cases decides_of_eq hs.plan_eq hs.mem_planIds hn with
      | stuck _ => exact ⟨rfl, stepsLeft_lt_of_weight hspends rfl Nat.one_lt_two⟩
      | blocked _ _ _ => exact ⟨rfl, stepsLeft_lt_of_weight hspends rfl Nat.one_lt_two⟩
      | review _ => exact ⟨rfl, stepsLeft_lt_of_weight hspends rfl Nat.one_lt_two⟩
      | batch _ _ => exact ⟨rfl, stepsLeft_lt_of_weight hspends rfl Nat.one_lt_two⟩
  | @specialists s batch result branches hb =>
    obtain ⟨plan, hs, hready, hran, heff⟩ := h.dispatched hb
    refine ⟨rfl, stepsLeft_lt_of_spends hspends (by rw [heff.frame]) ?_⟩
    have hpos := attempts_pos (n := .send batch) hs hready hran
    have hlt : ∀ n r : ℕ, 0 < n → 2 < 1 + 2 * n + 3 * r := by
      intro n r hn
      omega
    exact hlt _ _ hpos
  | @review s result n hn =>
    have hedge : n.stage = 0 ∧ n.weight ≤ 3 := by
      cases reviewed_of_route (r := result) rfl hn <;> simp [Next.stage, Next.weight]
    refine ⟨hedge.1, stepsLeft_lt_of_spends hspends rfl ?_⟩
    have hweight := hedge.2
    show n.weight < 1 + _ + 3 * 1
    omega
  | applyReviewFeedback hu =>
    obtain ⟨r, -, rfl⟩ := update_of_applyReviewFeedback hu
    exact ⟨rfl, stepsLeft_lt_of_weight hspends rfl (Nat.lt_succ_self 2)⟩
  | notifyHuman hu =>
    obtain ⟨escalation, rfl⟩ := update_of_notifyHuman hu
    exact ⟨rfl, stepsLeft_lt_of_weight hspends rfl (Nat.lt_succ_self 2)⟩
  | synthesize text => exact ⟨rfl, stepsLeft_lt_of_weight hspends rfl Nat.one_lt_two⟩
  | deliver memory hu =>
    obtain rfl := update_of_deliver hu
    exact ⟨rfl, stepsLeft_lt_of_weight hspends rfl Nat.zero_lt_one⟩
  | rejectTask => exact ⟨rfl, stepsLeft_lt_of_weight hspends rfl Nat.zero_lt_one⟩
  | humanEscalation decision he => exact absurd ha (by simp [Event.isInterrupt])

/-- In the opening every step is on its way to a plan that stays. -/
theorem stage_lt_of_step {cfg : Settings} {c c' : Config} {e : Event} (h : At cfg c.state c.next)
    (hf : Fires cfg c e c') (hstage : c.next.stage ≠ 0) : c'.next.stage < c.next.stage := by
  cases hf with
  | intake uuid memories => exact Nat.lt_succ_self 1
  | @planTask s plan n hn =>
    have hplan : (s.apply (planTask plan)).plan = some plan := rfl
    rw [routeAfterPlan_eq hplan hn]
    split <;> exact Nat.zero_lt_one
  | applyHumanDecision hd hs hu hn =>
    obtain ⟨plan, escalation, -, -, -, hdecided⟩ := h.decided hd hs hu hn
    cases hdecided <;> simp [Next.stage]
  | _ => exact absurd rfl hstage

theorem rank_lt_of_step {cfg : Settings} {c c' : Config} {e : Event} (h : At cfg c.state c.next)
    (hf : Fires cfg c e c') (ha : e.isInterrupt = false) : rank cfg c' < rank cfg c := by
  refine Prod.Lex.toLex_lt_toLex.2 ?_
  by_cases hstage : c.next.stage = 0
  · obtain ⟨hstage', hlt⟩ := stepsLeft_lt_of_step h hf ha hstage
    exact Or.inr ⟨hstage'.trans hstage.symm, hlt⟩
  · exact Or.inl (stage_lt_of_step h hf hstage)

/-- A segment starts with the run, or with a decision. -/
def Opens (pre : List Event) : Prop := ∀ e ∈ pre.getLast?, e.isInterrupt = true

theorem period_of_opens {cfg : Settings} {s : OrchestratorState} {pre : List Event} {c : Config}
    (hr : Exec (Step cfg) (start s) pre c) (ho : Opens pre) : c.next.period = .opening := by
  cases hr with
  | refl => rfl
  | @snoc pre c' _ e hr' hstep =>
    have he : e.isInterrupt = true := ho e (by simp)
    cases hstep.fires with
    | humanEscalation decision _ => rfl
    | _ => exact absurd he (by simp [Event.isInterrupt])

theorem coe_remaining_zero (limit : Int) : (remaining limit 0 : Int) = max limit 1 := by
  unfold remaining
  omega

/-- What a segment uses is bounded by what is left at its start. -/
theorem Automatic.bounded {cfg : Settings} {c c' : Config} {tr : List Event} {limit : Int} {cost : Event → ℕ}
    {left : Config → ℕ} (h : At cfg c.state c.next) (hleft : left c = remaining limit 0)
    (hspend : ∀ c e c', Spends cfg c e c' → cost e + left c' ≤ left c) (hr : Exec (Automatic cfg) c tr c') :
    ((tr.map cost).sum : Int) ≤ max limit 1 := by
  have hbudget : (tr.map cost).sum + left c' ≤ left c := by
    refine hr.budget (fun c => At cfg c.state c.next) h fun c e c' hat hstep => ?_
    exact ⟨hat.step hstep.1.fires, hspend c e c' (spends_of_step hat hstep.1.fires hstep.2)⟩
  rw [← coe_remaining_zero, ← hleft]
  omega

/-- Between two interrupts the graph takes finitely many steps.  In them the reviewer is asked at most
`max_review_cycles` times and a subtask fails at most `max_specialist_retries` times and succeeds at most
`max_review_cycles` times, where a limit below one counts as one. -/
theorem automatic_bounded {cfg : Settings} {s : OrchestratorState} {pre : List Event} {c : Config} (h0 : Fresh s)
    (hr : Exec (Step cfg) (start s) pre c) (ho : Opens pre) :
    (∀ tr c', Exec (Automatic cfg) c tr c' →
      ((tr.map Event.reviews).sum : Int) ≤ max cfg.maxReviewCycles 1 ∧
      ∀ sid, ((tr.map (Event.attempts false sid)).sum : Int) ≤ max cfg.maxSpecialistRetries 1 ∧
        ((tr.map (Event.attempts true sid)).sum : Int) ≤ max cfg.maxReviewCycles 1) ∧
    ¬ ∃ f : ℕ → Config, f 0 = c ∧ ∀ i, ∃ e, Automatic cfg (f i) e (f (i + 1)) := by
  have hat := at_of_exec h0 hr
  have hperiod := period_of_opens hr ho
  constructor
  · intro tr c' hseg
    refine ⟨?_, fun sid => ⟨?_, ?_⟩⟩
    · have hleft : reviewsLeft cfg c = remaining cfg.maxReviewCycles 0 := by
        unfold reviewsLeft
        rw [hperiod]
      exact Automatic.bounded hat hleft (fun _ _ _ h => h.reviews) hseg
    · have hleft : failuresLeft cfg sid c = remaining cfg.maxSpecialistRetries 0 := by
        unfold failuresLeft
        rw [hperiod]
      exact Automatic.bounded hat hleft (fun _ _ _ h => h.failures sid) hseg
    · have hleft : successesLeft cfg sid c = remaining cfg.maxReviewCycles 0 := by
        unfold successesLeft
        rw [hperiod]
      exact Automatic.bounded hat hleft (fun _ _ _ h => h.successes sid) hseg
  · have hstep : ∀ c e c', At cfg c.state c.next → Automatic cfg c e c' →
        At cfg c'.state c'.next ∧ rank cfg c' < rank cfg c := by
      rintro c e c' hat ⟨hstep, ha⟩
      exact ⟨hat.step hstep.fires, rank_lt_of_step hat hstep.fires ha⟩
    exact Exec.not_infinite _ hat hstep

theorem automatic_bounded_sample :
    (∀ tr c', Exec (Automatic Settings.default) (start sampleStart) tr c' →
      ((tr.map Event.reviews).sum : Int) ≤ max 2 1 ∧
      ∀ sid, ((tr.map (Event.attempts false sid)).sum : Int) ≤ max 2 1 ∧
        ((tr.map (Event.attempts true sid)).sum : Int) ≤ max 2 1) ∧
    ¬ ∃ f : ℕ → Config, f 0 = start sampleStart ∧ ∀ i, ∃ e, Automatic Settings.default (f i) e (f (i + 1)) :=
  automatic_bounded fresh_sampleStart .refl (by simp [Opens])

end AgentOrchestrator
