import AgentOrchestrator.Agents.Supervisor
import AgentOrchestrator.Graph.Run

/-!
# Tasks that share a supervisor

One compiled graph holds one supervisor, which gets the calls of every task run through it.  Within a run no plan is
made after the synthesis (`quiet_of_synthesis`), so a graph used once sends what it is meant to send; a graph used again
does so exactly if no task that plans comes after one that synthesized (`session_intended_iff`).
-/

namespace AgentOrchestrator

/-- The event is a call of `create_plan`. -/
def Plans (e : Event) : Prop := ∃ task memoryContext plan, e = .planTask task memoryContext plan

/-- The event is a call of `synthesize`. -/
def Synthesizes (e : Event) : Prop := ∃ completed text, e = .synthesize completed text

/-- The call of the supervisor made in an event of a run of `task`. -/
inductive Calls (task : String) : Event → SupervisorCall → Prop
  | createPlan {memoryContext : String} {plan : ExecutionPlan} (raw : AiMessage) :
      Calls task (.planTask task memoryContext plan) (.createPlan task memoryContext (.ok (raw, some plan)))
  | synthesize {completed : Dict String SubtaskResult} (raw : AiMessage) :
      Calls task (.synthesize completed raw.content) (.synthesize task completed (.ok raw))

/-- The calls made in the events of a run of `task`, in order. -/
inductive CallsOf (task : String) : List Event → List SupervisorCall → Prop
  | nil : CallsOf task [] []
  | call {e : Event} {call : SupervisorCall} {tr : List Event} {calls : List SupervisorCall} (h : Calls task e call)
      (hr : CallsOf task tr calls) : CallsOf task (e :: tr) (call :: calls)
  | skip {e : Event} {tr : List Event} {calls : List SupervisorCall} (hp : ¬ Plans e) (hs : ¬ Synthesizes e)
      (hr : CallsOf task tr calls) : CallsOf task (e :: tr) calls

/-- Tasks run one after another through one graph, each from a fresh state, and the calls its supervisor gets. -/
inductive Session (cfg : Settings) : List (List Event) → List SupervisorCall → Prop
  | nil : Session cfg [] []
  | cons {s : OrchestratorState} {tr : List Event} {c : Config} {trs : List (List Event)}
      {calls later : List SupervisorCall} (hr : Exec (Step cfg) (start s) tr c) (hc : CallsOf s.task tr calls)
      (hl : Session cfg trs later) : Session cfg (tr :: trs) (calls ++ later)

/-! ### The calls of a run -/

theorem Calls.isSynthesis_iff {task : String} {e : Event} {call : SupervisorCall} (h : Calls task e call) :
    call.isSynthesis = true ↔ Synthesizes e := by
  cases h with
  | createPlan raw => exact iff_of_false (by simp [SupervisorCall.isSynthesis]) (by simp [Synthesizes])
  | synthesize raw => exact iff_of_true rfl ⟨_, _, rfl⟩

theorem Calls.plans_iff {task : String} {e : Event} {call : SupervisorCall} (h : Calls task e call) :
    call.isSynthesis = false ↔ Plans e := by
  cases h with
  | createPlan raw => exact iff_of_true rfl ⟨_, _, _, rfl⟩
  | synthesize raw => exact iff_of_false (by simp [SupervisorCall.isSynthesis]) (by simp [Plans])

/-- The calls of a kind are those of the events of that kind. -/
theorem CallsOf.exists_iff {task : String} {tr : List Event} {calls : List SupervisorCall}
    (h : CallsOf task tr calls) :
    ((∃ call ∈ calls, call.isSynthesis = true) ↔ ∃ e ∈ tr, Synthesizes e) ∧
      ((∃ call ∈ calls, call.isSynthesis = false) ↔ ∃ e ∈ tr, Plans e) := by
  induction h with
  | nil => simp
  | call hcall _ ih =>
    simp only [List.exists_mem_cons_iff]
    exact ⟨or_congr hcall.isSynthesis_iff ih.1, or_congr hcall.plans_iff ih.2⟩
  | skip hp hs _ ih =>
    simp only [List.exists_mem_cons_iff, hp, hs, false_or]
    exact ih

/-- After the synthesis a run makes no more calls. -/
theorem quiet_of_synthesis {cfg : Settings} {s : OrchestratorState} {tr : List Event} {c : Config}
    (hr : Exec (Step cfg) (start s) tr c) :
    tr.Pairwise (fun e later => Synthesizes e → ¬ Plans later) ∧
      ((∃ e ∈ tr, Synthesizes e) → c.next = .node .deliver ∨ c.next = .finish) := by
  refine hr.invariant (fun tr c => tr.Pairwise (fun e later => Synthesizes e → ¬ Plans later) ∧
    ((∃ e ∈ tr, Synthesizes e) → c.next = .node .deliver ∨ c.next = .finish)) ⟨List.Pairwise.nil, by simp⟩ ?_
  rintro tr c e c' - ⟨hpair, hend⟩ hs
  constructor
  · rw [List.pairwise_append]
    refine ⟨hpair, List.pairwise_singleton _ _, fun x hx y hy hsyn => ?_⟩
    obtain rfl := List.mem_singleton.1 hy
    rintro ⟨task, memoryContext, plan, rfl⟩
    have hnext := hend ⟨x, hx, hsyn⟩
    cases hs.fires with
    | planTask _ _ => exact absurd hnext (by simp)
  · rintro ⟨x, hx, hsyn⟩
    rcases List.mem_append.1 hx with hx | hx
    · -- what runs next is `deliver` or nothing
      have hnext := hend ⟨x, hx, hsyn⟩
      cases hs.fires with
      | deliver _ _ => exact Or.inr rfl
      | _ => exact absurd hnext (by simp)
    · obtain rfl := List.mem_singleton.1 hx
      obtain ⟨completed, text, rfl⟩ := hsyn
      cases hs.fires with
      | synthesize _ => exact Or.inl rfl

theorem CallsOf.plansFirst {task : String} {tr : List Event} {calls : List SupervisorCall} (h : CallsOf task tr calls)
    (hq : tr.Pairwise fun e later => Synthesizes e → ¬ Plans later) : PlansFirst calls := by
  induction h with
  | nil => exact List.Pairwise.nil
  | call hcall hr ih =>
    -- a plan later in the calls would be one later in the run
    rw [List.pairwise_cons] at hq
    refine List.pairwise_cons.2 ⟨fun later hl hsyn => ?_, ih hq.2⟩
    by_contra hplan
    obtain ⟨e, he, hp⟩ := hr.exists_iff.2.1 ⟨later, hl, by simpa using hplan⟩
    exact hq.1 e he (hcall.isSynthesis_iff.1 hsyn) hp
  | skip _ _ _ ih => exact ih (List.pairwise_cons.1 hq).2

/-! ### The calls of a session -/

theorem Session.exists_iff {cfg : Settings} {trs : List (List Event)} {calls : List SupervisorCall}
    (h : Session cfg trs calls) : (∃ call ∈ calls, call.isSynthesis = false) ↔ ∃ tr ∈ trs, ∃ e ∈ tr, Plans e := by
  induction h with
  | nil => simp
  | cons _ hc _ ih =>
    rw [List.exists_mem_cons_iff, ← ih, ← hc.exists_iff.2]
    simp [or_and_right, exists_or]

/-- A graph used for several tasks sends what it is meant to send exactly if no task plans after one that
synthesized. -/
theorem session_intended_iff {cfg : Settings} {trs : List (List Event)} {calls : List SupervisorCall}
    (dump : ExecutionPlan → String) (modelName : String) (h : Session cfg trs calls) :
    SendsIntended dump (SupervisorAgent.new modelName) calls ↔
      trs.Pairwise fun tr later => (∃ e ∈ tr, Synthesizes e) → ∀ e ∈ later, ¬ Plans e := by
  rw [prompts_intended_iff]
  induction h with
  | nil => exact iff_of_true List.Pairwise.nil List.Pairwise.nil
  | @cons s tr c trs calls later hr hc hl ih =>
    unfold PlansFirst at ih ⊢
    rw [List.pairwise_append, List.pairwise_cons, ih]
    constructor
    · rintro ⟨-, htail, hcross⟩
      refine ⟨fun tr' htr' hsyn e he hp => ?_, htail⟩
      obtain ⟨call, hcall, hc'⟩ := hc.exists_iff.1.2 hsyn
      obtain ⟨plan, hplan, hp'⟩ := hl.exists_iff.2 ⟨tr', htr', e, he, hp⟩
      exact absurd (hcross call hcall plan hplan hc') (by simp [hp'])
    · rintro ⟨hhead, htail⟩
      -- within the first run by `quiet_of_synthesis`, across runs by `hhead`
      refine ⟨hc.plansFirst (quiet_of_synthesis hr).1, htail, fun call hcall plan hplan hsyn => ?_⟩
      by_contra hp
      obtain ⟨tr', htr', e, he, hpe⟩ := hl.exists_iff.1 ⟨plan, hplan, by simpa using hp⟩
      exact hhead tr' htr' (hc.exists_iff.1.1 ⟨call, hcall, hsyn⟩) e he hpe

/-! ### Two tasks -/

private def isPlain (tr : List Event) : Bool :=
  match tr with
  | [.intake, .planTask task _ _, .routeBatch, .specialists _, .routeBatch, .review _ _, .synthesize _ _] =>
    decide (task = "Report")
  | _ => false

/-- The second task through a graph is planned with the synthesis prompt. -/
theorem second_task_misprompted : ∃ trs calls, Session Settings.default trs calls ∧
    ∃ task memoryContext reply sent,
      (.createPlan task memoryContext reply, sent) ∈ history (fun _ => "") (SupervisorAgent.new "claude") calls ∧
        sent = [.system synthesisSystemPrompt, .human (SupervisorAgent.planPrompt task memoryContext)] ∧
        sent ≠ [.system planningSystemPrompt, .human (SupervisorAgent.planPrompt task memoryContext)] := by
  have hscript : scriptEnds (step Settings.default) (start sampleStart)
      [.intake "t" none, .plan (samplePlan [sampleSubtask "a" []]), .none, .results (sampleResult true), .none,
        .review (sampleReview true []), .synthesis "Report"] (fun tr _ => isPlain tr) = true := by
    decide +kernel
  obtain ⟨tr, c, hr, hp⟩ := exec_of_scriptEnds hscript
  unfold isPlain at hp
  split at hp
  · rename_i task memoryContext plan runs reviewed result completed text
    obtain rfl : task = "Report" := of_decide_eq_true hp
    have hcalls : CallsOf "Report" [.intake, .planTask "Report" memoryContext plan, .routeBatch, .specialists runs,
        .routeBatch, .review reviewed result, .synthesize completed text]
        [.createPlan "Report" memoryContext (.ok (⟨"", none⟩, some plan)),
          .synthesize "Report" completed (.ok ⟨text, none⟩)] := by
      refine .skip ?_ ?_ (.call (.createPlan ⟨"", none⟩) (.skip ?_ ?_ (.skip ?_ ?_ (.skip ?_ ?_ (.skip ?_ ?_
        (.call (.synthesize ⟨text, none⟩) .nil))))))
      all_goals simp [Plans, Synthesizes]
    have hnext : CallsOf "Report" [.intake, .planTask "Report" "" sensitivePlan]
        [.createPlan "Report" "" (.ok (⟨"", none⟩, some sensitivePlan))] := by
      refine .skip ?_ ?_ (.call (.createPlan ⟨"", none⟩) .nil)
      all_goals simp [Plans, Synthesizes]
    have hsession := Session.cons hr hcalls (.cons ((Exec.single step_intake_sample).snoc step_sensitivePlan) hnext .nil)
    refine ⟨_, _, hsession, "Report", "", _, _, List.mem_cons_of_mem _ (List.mem_cons_of_mem _ List.mem_cons_self),
      rfl, ?_⟩
    intro h
    have hprompt := (Message.system.inj (List.cons.inj h).1)
    exact planningSystemPrompt_ne hprompt.symm
  · exact absurd hp (by simp)

end AgentOrchestrator
