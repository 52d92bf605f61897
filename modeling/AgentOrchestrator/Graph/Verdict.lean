import AgentOrchestrator.Graph.Invariant

/-!
# The verdict of the scheduler

In every run from a fresh state, `decide_next_batch` answers "review" exactly when the plan is finished, dispatches
only what can start, and escalates only for a stuck subtask or for a plan that cannot be finished
(`verdict_exact`).  The completeness test by lengths is exact because `completed` holds ids of the plan only, and a
blocked plan is hopeless by `Dependency.Blocked.hopeless`.
-/

namespace AgentOrchestrator

open Dependency

/-- `sid` has an entry in the plan that lists `d`; for a repeated id any entry counts. -/
def Lists (plan : ExecutionPlan) (sid d : String) : Prop := ∃ st ∈ plan.subtasks, st.id = sid ∧ d ∈ st.dependsOn

/-- Every dependency is an id of the plan. -/
def Closed (plan : ExecutionPlan) : Prop := ∀ st ∈ plan.subtasks, ∀ d ∈ st.dependsOn, d ∈ planIds plan

/-- No subtask waits for itself, directly or not. -/
def Acyclic (plan : ExecutionPlan) : Prop := ∀ sid, ¬ Relation.TransGen (Lists plan) sid sid

theorem DependsOn.lists {plan : ExecutionPlan} {sid d : String} (h : DependsOn plan sid d) : Lists plan sid d := by
  obtain ⟨st, hst, hd⟩ := h
  obtain ⟨hm, hid⟩ := mem_of_get?_byId hst
  exact ⟨st, hm, hid, hd⟩

/-- In a closed acyclic plan everything can be worked off. -/
theorem resolvable_of_closed_of_acyclic {plan : ExecutionPlan} (hc : Closed plan) (ha : Acyclic plan) {sid : String}
    (hs : sid ∈ planIds plan) : PlanResolvable plan sid := by
  refine (resolvable_iff (planIds_finite plan)).2 ⟨hs, ?_⟩
  have hlift : ∀ a b, Relation.TransGen (DependsOn plan) a b → Relation.TransGen (Lists plan) a b :=
    fun a b h => Relation.TransGen.mono (fun _ _ => DependsOn.lists) a b h
  rintro ⟨x, hx, hmiss | hcyc⟩
  · obtain ⟨y, -, hyx⟩ := Relation.TransGen.tail'_iff.1 hx
    obtain ⟨st, hm, -, hd⟩ := hyx.lists
    exact hmiss (hc st hm x hd)
  · exact ha x (hlift x x hcyc)

/-! ### From the four answers to the verdict -/

/-- The answers of the router. -/
def IsVerdict (n : Next) : Prop := n = .node .review ∨ n = .node .humanEscalation ∨ ∃ batch, n = .send batch

theorem Decides.isVerdict {cfg : Settings} {plan : ExecutionPlan} {s : OrchestratorState} {n : Next}
    (h : Decides cfg plan s n) : IsVerdict n := by
  cases h with
  | stuck _ => exact Or.inr (Or.inl rfl)
  | batch _ _ => exact Or.inr (Or.inr ⟨_, rfl⟩)
  | blocked _ _ _ => exact Or.inr (Or.inl rfl)
  | review _ => exact Or.inl rfl

theorem Decides.review_iff {cfg : Settings} {plan : ExecutionPlan} {s : OrchestratorState} {n : Next}
    (h : Decides cfg plan s n) : n = .node .review ↔ AllDone plan s.completed := by
  cases h with
  | stuck hs => exact iff_of_false (by simp) fun hd => hs (scan_stuck_of_allDone hd)
  | batch _ hr =>
    refine iff_of_false (by simp) fun hd => ?_
    obtain ⟨sid, hsid⟩ := List.exists_mem_of_ne_nil _ hr
    obtain ⟨hk, hnd, -⟩ := mem_scan_ready.1 hsid
    exact hnd (hd sid hk)
  | blocked _ _ hd => exact iff_of_false (by simp) hd
  | review hd => exact iff_of_true rfl hd

/-- A batch is not empty and holds only subtasks that can start. -/
theorem Decides.startable {cfg : Settings} {plan : ExecutionPlan} {s : OrchestratorState} {batch : List SendPayload}
    (h : Decides cfg plan s (.send batch)) : batch ≠ [] ∧ ∀ p ∈ batch, p.subtaskId ∈ planIds plan ∧
      ¬ isDone s.completed p.subtaskId = true ∧
      ∀ d, DependsOn plan p.subtaskId d → isDone s.completed d = true := by
  cases h with
  | batch _ hr =>
    refine ⟨by simpa using hr, ?_⟩
    intro p hp
    obtain ⟨sid, hsid, rfl⟩ := List.mem_map.1 hp
    obtain ⟨hk, hnd, -, hdeps⟩ := mem_scan_ready.1 hsid
    exact ⟨hk, hnd, hdeps⟩

theorem Decides.escalates {cfg : Settings} {plan : ExecutionPlan} {s : OrchestratorState}
    (h : Decides cfg plan s (.node .humanEscalation)) :
    (∃ sid ∈ planIds plan, Stuck cfg s.completed s.retryCounts sid) ∨
      PlanBlocked plan (fun sid => isDone s.completed sid = true) ∧ ¬ AllDone plan s.completed := by
  cases h with
  | stuck hs =>
    obtain ⟨sid, hsid⟩ := List.exists_mem_of_ne_nil _ hs
    obtain ⟨hk, hst⟩ := mem_scan_stuck.1 hsid
    exact Or.inl ⟨sid, hk, hst⟩
  | blocked _ hb hd => exact Or.inr ⟨hb, hd⟩

/-- The scheduler's verdict in every state at `route_batch` of a run from a fresh state. -/
theorem verdict_exact {cfg : Settings} {s : OrchestratorState} {tr : List Event} {c : Config} (h0 : Fresh s)
    (hr : Exec (Step cfg) (start s) tr c) (hn : c.next = .node .routeBatch) :
    ∃ plan n, c.state.plan = some plan ∧ decideNextBatch cfg c.state = .ok n ∧ IsVerdict n ∧
      (n = .node .review ↔ AllDone plan c.state.completed) ∧
      (∀ batch, n = .send batch → batch ≠ [] ∧ ∀ p ∈ batch, p.subtaskId ∈ planIds plan ∧
        ¬ isDone c.state.completed p.subtaskId = true ∧
        ∀ d, DependsOn plan p.subtaskId d → isDone c.state.completed d = true) ∧
      (n = .node .humanEscalation →
        (∃ sid ∈ planIds plan, Stuck cfg c.state.completed c.state.retryCounts sid) ∨
          ∀ sid ∈ planIds plan, ¬ isDone c.state.completed sid = true → PlanHopeless plan sid) ∧
      (Closed plan → Acyclic plan → n = .node .humanEscalation →
        ∃ sid ∈ planIds plan, Stuck cfg c.state.completed c.state.retryCounts sid) := by
  have hat := at_of_exec h0 hr
  rw [hn] at hat
  cases hat with
  | @routeBatch plan hsound =>
    obtain ⟨n, hd, hcase⟩ := @decideNextBatch_cases cfg plan c.state hsound.plan_eq hsound.mem_planIds
    refine ⟨plan, n, hsound.plan_eq, hd, hcase.isVerdict, hcase.review_iff, ?_, ?_, ?_⟩
    · rintro batch rfl
      exact hcase.startable
    · rintro rfl
      rcases hcase.escalates with hst | ⟨hb, -⟩
      · exact Or.inl hst
      · exact Or.inr fun sid hk hnd => hb.hopeless (planIds_finite plan) hk hnd
    · rintro hc ha rfl
      rcases hcase.escalates with hst | ⟨hb, hnd⟩
      · exact hst
      · -- a subtask that is not done cannot be resolvable in a blocked plan
        simp only [AllDone, not_forall] at hnd
        obtain ⟨sid, hk, hsid⟩ := hnd
        exact absurd hb ((resolvable_of_closed_of_acyclic hc ha hk).not_blocked hsid)

/-- The verdict right after planning a subtask with an unknown dependency: an escalation, and the subtask is hopeless. -/
theorem verdict_unknown_dependency : ∃ c, Exec (Step Settings.default) (start sampleStart)
      [.intake, .planTask "Report" "" (samplePlan [sampleSubtask "a" ["z"]])] c ∧ c.next = .node .routeBatch ∧
    decideNextBatch Settings.default c.state = .ok (.node .humanEscalation) ∧
    PlanHopeless (samplePlan [sampleSubtask "a" ["z"]]) "a" := by
  have hroute : routeAfterPlan Settings.default ((sampleStart.apply (intake "t" none sampleStart)).apply
      (planTask (samplePlan [sampleSubtask "a" ["z"]]))) = .ok (.node .routeBatch) := by decide +kernel
  have hr := (Exec.single (Fires.intake "t" none).step).snoc (Fires.planTask _ hroute).step
  obtain ⟨plan, n, hplan, hd, -, -, -, hesc, -⟩ := verdict_exact fresh_sampleStart hr rfl
  obtain rfl : samplePlan [sampleSubtask "a" ["z"]] = plan := Option.some.inj hplan
  have hd' : decideNextBatch Settings.default ((sampleStart.apply (intake "t" none sampleStart)).apply
      (planTask (samplePlan [sampleSubtask "a" ["z"]]))) = .ok (.node .humanEscalation) := by decide +kernel
  obtain rfl := Except.ok.inj (hd'.symm.trans hd)
  refine ⟨_, hr, rfl, hd', ?_⟩
  rcases hesc rfl with ⟨sid, -, result, hres, -⟩ | hall
  · exact absurd hres (by simp [planTask, intake, sampleStart])
  · exact hall "a" (by simp [planIds, samplePlan, sampleSubtask])
      (by simp [planTask, intake, sampleStart, isDone])

end AgentOrchestrator
