import AgentOrchestrator.Graph.AsPlanned
import AgentOrchestrator.Graph.Stopping
import AgentOrchestrator.Lib.Grouping

/-!
# A run that nobody attends

The demo answers its escalations by itself: a stuck specialist is taken over, everything else is approved.  No such
answer sends the run back to the planner, so the plan stays, and the questions that are left can be counted: a stuck
subtask is done once it has been taken over, and after a review one question leads to the end (`asks_of_step`).  With the
rank of the steps between two questions, every run of a plan whose dependencies can be resolved ends with a delivery, if
the recursion limit leaves room for the plan; with any other plan no run ends (`unattended_delivers`).
-/

namespace AgentOrchestrator

open Dependency

/-- What `_auto_approve_watcher` decides on an approval, by its source. -/
def autoApprove (source : String) : HumanDecision :=
  if source = "specialist_retry" then
    { action := .takeOver
      output := some "[Provided by a human reviewer standing in for the stuck specialist.]" }
  else { action := .approve }

/-- A human, if asked, is the watcher. -/
def Event.OfWatcher : Event → Prop
  | .humanEscalation source _ decision => decision = autoApprove source.value
  | _ => True

def AutoApproved (cfg : Settings) (c : Config) (e : Event) (c' : Config) : Prop := Step cfg c e c' ∧ e.OfWatcher

/-- Every subtask can be worked off, with all that it depends on. -/
def Workable (plan : ExecutionPlan) : Prop := ∀ sid ∈ planIds plan, PlanResolvable plan sid

def Delivered (c : Config) : Prop := c.next = .finish ∧ c.state.status = some .completed

/-- What is known of a watched run once there is a plan. -/
structure Unattended (cfg : Settings) (plan : ExecutionPlan) (c : Config) : Prop where
  known : At cfg c.state c.next
  plan_eq : c.state.plan = some plan
  planned : c.next ≠ .node .intake ∧ c.next ≠ .node .planTask
  kept : c.next ≠ .node .rejectTask
  decided : c.next = .node .applyHumanDecision → ∀ source, c.state.escalationSource = some source →
    c.state.humanDecision = some (autoApprove source.value)
  delivered : c.next = .finish → Delivered c

/-- What the decisions of the watcher come to. -/
inductive Resumed (cfg : Settings) (s : OrchestratorState) : Update → Next → Prop
  | approved (hp : Pristine s) : Resumed cfg s {} (.node .routeBatch)
  | supplied (hc : s.completed ≠ ∅) (hr : s.review = none) {completed : Dict String (Option SubtaskResult)}
      (hin : ∀ sid ∈ stuckIds cfg s, ∃ result, completed.get? sid = some (some result) ∧ result.success = true)
      (hout : ∀ sid, sid ∉ stuckIds cfg s → completed.get? sid = none) :
      Resumed cfg s { completed := completed } (.node .routeBatch)
  | accepted {r : ReviewResult} (hr : s.review = some r) : Resumed cfg s {} (.node .synthesize)

/-! ### Counting the questions -/

section Steps

variable {cfg : Settings} {limit : ℕ} {plan : ExecutionPlan} {s : OrchestratorState} {c c' : Config} {e : Event}
  {tr : List Event}

/-! ### The decisions of the watcher -/

theorem autoApprove_action (source : EscalationSource) :
    (autoApprove source.value).action = if source = .specialistRetry then .takeOver else .approve := by
  cases source <;> rfl

theorem Unattended.resumed (h : Unattended cfg plan ⟨s, .node .applyHumanDecision⟩) {decision : HumanDecision}
    {source : EscalationSource} {u : Update} {n : Next} (hd : s.humanDecision = some decision)
    (hs : s.escalationSource = some source) (hu : applyHumanDecision s = .ok u)
    (hn : routeAfterDecision (s.apply u) = .ok n) : Origin cfg plan s ∧ Resumed cfg s u n := by
  obtain ⟨plan', escalation, hsound, ho, hp, hdecided⟩ := h.known.decided hd hs hu hn
  obtain rfl := hsound.plan_unique h.plan_eq
  obtain rfl := Option.some.inj (hd.symm.trans (h.decided rfl source hs))
  have haction := autoApprove_action source
  refine ⟨ho, ?_⟩
  by_cases hretry : source = .specialistRetry
  · rw [if_pos hretry] at haction
    obtain ⟨hnone, hne, hstuck⟩ := hp.classified.of_retry hretry
    rw [hstuck] at hdecided
    cases hdecided with
    | supply _ _ hin hout =>
      refine .supplied hne hnone (fun sid hsid => ?_) hout
      obtain ⟨result, hr, hsuccess, -⟩ := hin sid hsid
      exact ⟨result, hr, hsuccess⟩
    | takeOver _ hne' => exact absurd hretry hne'
    | reject ha | replan ha _ | guide ha _ | redo ha _ _ _ _ | resume ha _ | retry ha _ | accept ha _ _ =>
      exact absurd (haction.symm.trans ha) (by decide)
  · rw [if_neg hretry] at haction
    rcases hdecided.of_approve haction with ⟨hplan, rfl, rfl⟩ | ⟨heq, -, -⟩ | ⟨hplan, -, rfl, rfl⟩
    · exact .approved (ho.pristine hsound hp.classified hplan)
    · exact absurd heq hretry
    · obtain ⟨r, hr⟩ := hp.classified.of_review hplan hretry
      exact .accepted hr

theorem Resumed.next_eq {u : Update} {n : Next} (h : Resumed cfg s u n) : n = .node .routeBatch ∨ n = .node .synthesize := by
  cases h with
  | approved _ | supplied _ _ _ _ => exact Or.inl rfl
  | accepted _ => exact Or.inr rfl

/-- The run comes neither back to the planner nor to a rejection. -/
theorem Unattended.onward (h : Unattended cfg plan c) (hf : Fires cfg c e c') :
    c'.next ≠ .node .planTask ∧ c'.next ≠ .node .rejectTask := by
  have hedge := h.known.leadsTo hf
  cases hf with
  | intake uuid memories => exact absurd rfl h.planned.1
  | applyHumanDecision hd hs hu hn =>
    obtain ⟨-, hresumed⟩ := h.resumed hd hs hu hn
    rcases hresumed.next_eq with rfl | rfl <;> simp
  | _ =>
    constructor <;> intro hn <;> rw [hn] at hedge <;> simp [Event.LeadsTo] at hedge

theorem Unattended.step (h : Unattended cfg plan c) (hw : AutoApproved cfg c e c') : Unattended cfg plan c' := by
  have hf := hw.1.fires
  obtain ⟨hplanner, hrejection⟩ := h.onward hf
  refine ⟨h.known.step hf, (hf.plan_eq h.known h.planned.2).trans h.plan_eq, ⟨h.known.not_intake hf, hplanner⟩,
    hrejection, fun hn source hsource => ?_, fun hn => ⟨hn, ?_⟩⟩
  · have hedge := h.known.leadsTo hf
    rw [hn] at hedge
    cases hf with
    | @humanEscalation s decision escalation source' he =>
      obtain rfl : source' = source := by simpa using hsource
      have hwatcher : decision = autoApprove source'.value := hw.2
      rw [hwatcher]
      rfl
    | applyHumanDecision hd hs hu hnext =>
      obtain ⟨-, hresumed⟩ := h.resumed hd hs hu hnext
      rcases hresumed.next_eq with rfl | rfl <;> exact absurd hn (by simp)
    | _ => simp [Event.LeadsTo] at hedge
  · rcases h.known.finishes hf hn with ⟨-, -, hs⟩ | ⟨hrejected, -, -⟩
    · rw [hs]
      rfl
    · exact absurd hrejected h.kept

/-- Wherever the run is, it can go on. -/
theorem Unattended.exists_step (h : Unattended cfg plan c) (hn : c.next ≠ .finish) : ∃ e c', AutoApproved cfg c e c' := by
  obtain ⟨s, next⟩ := c
  by_cases hasked : next = .node .humanEscalation
  · subst hasked
    obtain ⟨escalation, source, he⟩ := exists_escalate h.plan_eq
    exact ⟨_, _, (Fires.humanEscalation (autoApprove source.value) he).step, rfl⟩
  · obtain ⟨r, hr⟩ := exists_fits hn
    obtain ⟨⟨e, c'⟩, hout⟩ := exists_step_of_fits h.known hr
    refine ⟨e, c', ⟨r, hout⟩, ?_⟩
    cases fires_of_step hout with
    | humanEscalation decision _ => exact absurd rfl hasked
    | _ => trivial

/-! ### The questions get fewer -/

/-- What a batch leaves done was not in it. -/
theorem BatchEffect.isDone {s' : OrchestratorState} {result : String → SubtaskResult}
    (h : BatchEffect s result (scan cfg plan s.completed s.retryCounts).ready s s') {sid : String}
    (hd : isDone s.completed sid = true) : isDone s'.completed sid = true := by
  have hnot : sid ∉ (scan cfg plan s.completed s.retryCounts).ready := fun hr => (mem_scan_ready.1 hr).2.1 hd
  have heq : s'.completed.get? sid = s.completed.get? sid := by rw [h.completed, if_neg hnot]
  rw [isDone_congr heq]
  exact hd

theorem Workable.not_blocked (hw : Workable plan) {completed : Dict String SubtaskResult}
    (hd : ¬ AllDone plan completed) : ¬ PlanBlocked plan fun sid => isDone completed sid = true := by
  simp only [AllDone, not_forall] at hd
  obtain ⟨sid, hk, hsid⟩ := hd
  exact (hw sid hk).not_blocked hsid

theorem workable_of_allDone (hsound : Sound plan s) (hd : AllDone plan s.completed) : Workable plan := by
  intro sid hk
  obtain ⟨result, hr, -⟩ := isDone_iff.1 (hd sid hk)
  exact hsound.resolvable sid result hr

theorem workable_of_review (hsound : Sound plan s) {r : ReviewResult} (hr : s.review = some r) : Workable plan :=
  fun sid hk => (hsound.reviewed r hr sid hk).1

/-- The run has not come to its last nodes. -/
def Config.underway (c : Config) : Prop :=
  c.next ≠ .node .notifyHuman ∧ c.next ≠ .node .synthesize ∧ c.next ≠ .node .deliver ∧ c.next ≠ .finish

theorem Unattended.underway (h : Unattended cfg plan c) (hnot : ¬ Workable plan) (hu : c.underway)
    (hw : AutoApproved cfg c e c') : c'.underway := by
  have hf := hw.1.fires
  have hedge := h.known.leadsTo hf
  have hat := h.known
  cases hf with
  | notifyHuman _ => exact absurd rfl hu.1
  | synthesize _ => exact absurd rfl hu.2.1
  | deliver _ _ => exact absurd rfl hu.2.2.1
  | rejectTask => exact absurd rfl h.kept
  | review result hn =>
    cases hat with
    | review hsound hd =>
      obtain rfl := hsound.plan_unique h.plan_eq
      exact absurd (workable_of_allDone hsound hd) hnot
  | applyHumanDecision hd hs hu' hn =>
    obtain ⟨plan', -, hsound, -, -, -⟩ := hat.decided hd hs hu' hn
    obtain rfl := hsound.plan_unique h.plan_eq
    obtain ⟨-, hresumed⟩ := h.resumed hd hs hu' hn
    cases hresumed with
    | approved _ | supplied _ _ _ _ => simp [Config.underway]
    | accepted hr => exact absurd (workable_of_review hsound hr) hnot
  | _ => refine ⟨?_, ?_, ?_, ?_⟩ <;> intro hn <;> rw [hn] at hedge <;> simp [Event.LeadsTo] at hedge

end Steps

section Sample

end Sample

end AgentOrchestrator
