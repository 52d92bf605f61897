import AgentOrchestrator.Graph.Progress

/-!
# Lookups

The nodes and routers subscript dictionaries and the state itself.  Here every subscript is written out with the
`KeyError` it can raise, also where a test stands before it (`isDoneAt`, `stuckIdsAt`), where the specialist of a subtask
is taken from those registered, and for `state["completed"]`, which is there once `plan_task` has returned it.
`lookups_succeed` says that none is ever raised.
-/

namespace AgentOrchestrator

open Fallible

/-! ### The subscripts -/

/-- `completed.get(dep) is not None and completed[dep].success`. -/
def isDoneAt (completed : Dict String SubtaskResult) (dep : String) : Except RunError Bool :=
  if (completed.get? dep).isSome then do
    let result ← require dep (completed.get? dep)
    return result.success
  else return false

/-- One turn of the loop of `decide_next_batch`. -/
def scanSubtaskAt (cfg : Settings) (completed : Dict String SubtaskResult) (retryCounts : Dict String Nat) (acc : Scan)
    (e : String × SubTask) : Except RunError Scan :=
  let dispatch : Except RunError Scan := do
    let depsDone ← e.2.dependsOn.allM (isDoneAt completed)
    return if depsDone then { acc with ready := acc.ready ++ [e.1] } else acc
  match completed.get? e.1 with
  | some result =>
    if result.success then return acc
    else if cfg.maxSpecialistRetries ≤ ((retryCounts.get? e.1).getD 0 : Nat) then
      return { acc with stuck := acc.stuck ++ [e.1] }
    else dispatch
  | none => dispatch

def decideNextBatchAt (cfg : Settings) (s : OrchestratorState) : Except RunError Next := do
  let plan ← require "plan" s.plan
  let found ← (byId plan).items.foldlM (scanSubtaskAt cfg s.completed s.retryCounts) {}
  if found.stuck ≠ [] then
    return .node .humanEscalation
  else if found.ready ≠ [] then
    return .send (found.ready.map (sendPayload plan s))
  else
    let unresolved := s.completed.items.filter fun e => !e.2.success
    if unresolved ≠ [] ∨ s.completed.length < (byId plan).length then
      return .node .humanEscalation
    else
      return .node .review

variable {α : Type}

/-- The search for the subtask, and `specialists[subtask.specialist]`. -/
def runSpecialistAt (specialists : Dict SpecialistType α) (result : SubtaskResult) (p : SendPayload) :
    Except RunError (SpecialistRun × Update) :=
  match p.plan.subtasks.find? fun st => st.id = p.subtaskId with
  | none => .error .stopIteration
  | some subtask => do
    let _specialist ← require subtask.specialist.value (specialists.get? subtask.specialist)
    runSpecialist result p

def runBatchAt (specialists : Dict SpecialistType α) (result : String → SubtaskResult) (batch : List SendPayload) :
    Except RunError (List (SpecialistRun × Update)) :=
  batch.mapM fun p => runSpecialistAt specialists (result p.subtaskId) p

/-- `count >= settings.max_specialist_retries and sid in completed and not completed[sid].success`. -/
def isStuckAt (cfg : Settings) (s : OrchestratorState) (e : String × Nat) : Except RunError Bool :=
  if cfg.maxSpecialistRetries ≤ (e.2 : Int) ∧ (s.completed.get? e.1).isSome then do
    let result ← require e.1 (s.completed.get? e.1)
    return !result.success
  else return false

/-- The entries of a list that pass a test which may raise. -/
def select? {β : Type} (test : β → Except RunError Bool) : List β → Except RunError (List β)
  | [] => return []
  | b :: rest => do
    let passed ← test b
    let selected ← select? test rest
    return if passed then b :: selected else selected

def stuckIdsAt (cfg : Settings) (s : OrchestratorState) : Except RunError (List String) := do
  let stuck ← select? (isStuckAt cfg s) s.retryCounts.items
  return stuck.map Prod.fst

def classifyAt (cfg : Settings) (s : OrchestratorState) :
    Except RunError (EscalationLevel × String × EscalationSource × List String) :=
  if s.completed.isEmpty && s.review.isNone then classify cfg s
  else
    match s.review with
    | some _ => classify cfg s
    | none => do
      let stuck ← stuckIdsAt cfg s
      return (.takeOver, "A specialist could not complete its subtask after the retry limit.", .specialistRetry, stuck)

/-- `human_escalation` up to its `interrupt()`. -/
def escalateAt (cfg : Settings) (s : OrchestratorState) : Except RunError (EscalationRequest × EscalationSource) := do
  let (level, reason, source, stuck) ← classifyAt cfg s
  return (
    { level := level
      reason := reason
      context := {
        task := s.task
        userId := s.userId
        plan := s.plan
        completed := some s.completed
        review := s.review
        memoryContext := some (s.memoryContext.getD "")
        stuckSubtaskIds := some stuck } },
    source)

/-- A configuration, and whether the state has the key `completed`. -/
structure LookupConfig where
  config : Config
  hasCompleted : Bool

/-- `state["completed"]`. -/
def LookupConfig.completed (c : LookupConfig) : Except RunError (Dict String SubtaskResult) :=
  if c.hasCompleted then return c.config.state.completed else throw (.keyError "completed")

def LookupConfig.goTo (c : LookupConfig) (s : OrchestratorState) (n : Next) : LookupConfig := ⟨⟨s, n⟩, c.hasCompleted⟩

/-- One step of the graph with all its lookups. -/
def lookupStep (cfg : Settings) (specialists : Dict SpecialistType α) (c : LookupConfig) (r : Reply) :
    Except RunError (Event × LookupConfig) :=
  let s := c.config.state
  match c.config.next, r with
  | .node .intake, .intake uuid memories =>
    return (.intake, c.goTo (s.apply (intake uuid memories s)) (.node .planTask))
  | .node .planTask, .plan plan => do
    let s' := s.apply (planTask plan)
    return (.planTask s.task (s.memoryContext.getD "") plan, ⟨⟨s', ← routeAfterPlan cfg s'⟩, true⟩)
  | .node .routeBatch, .none =>
    return (.routeBatch, c.goTo s (← decideNextBatchAt cfg s))
  | .send batch, .results result => do
    let branches ← runBatchAt specialists result batch
    return (.specialists (branches.map Prod.fst), c.goTo (applyAll s (branches.map Prod.snd)) (.node .routeBatch))
  | .node .review, .review result => do
    let completed ← c.completed
    let s' := s.apply (review result s)
    return (.review completed result, c.goTo s' (← routeAfterReview cfg s'))
  | .node .applyReviewFeedback, .none => do
    let u ← applyReviewFeedback s
    return (.applyReviewFeedback u.completed, c.goTo (s.apply u) (.node .routeBatch))
  | .node .notifyHuman, .none =>
    return (.notifyHuman, c.goTo (s.apply (← notifyHuman cfg s)) (.node .synthesize))
  | .node .synthesize, .synthesis text => do
    let completed ← c.completed
    return (.synthesize completed text, c.goTo (s.apply (synthesize text)) (.node .deliver))
  | .node .deliver, .memory memory => do
    let (record, u) ← deliver memory s
    return (.deliver record, c.goTo (s.apply u) .finish)
  | .node .rejectTask, .none =>
    return (.rejectTask, c.goTo (s.apply rejectTask) .finish)
  | .node .humanEscalation, .decision decision => do
    let (escalation, source) ← escalateAt cfg s
    return (.humanEscalation source escalation decision,
      c.goTo (s.apply {
        escalation := some escalation
        escalationSource := some source
        humanDecision := some decision }) (.node .applyHumanDecision))
  | .node .applyHumanDecision, .none => do
    let decision ← require "human_decision" s.humanDecision
    let source ← require "escalation_source" s.escalationSource
    let u ← applyHumanDecision s
    let s' := s.apply u
    return (.applyHumanDecision source decision u.completed, c.goTo s' (← routeAfterDecision s'))
  | _, _ => .error .unfit

def LookupStep (cfg : Settings) (specialists : Dict SpecialistType α) (c : LookupConfig) (e : Event)
    (c' : LookupConfig) : Prop := ∃ r, lookupStep cfg specialists c r = .ok (e, c')

/-- The replies that what runs next can get. -/
def Fits : Next → Reply → Prop
  | .node .intake, .intake _ _ => True
  | .node .planTask, .plan _ => True
  | .node .routeBatch, .none => True
  | .send _, .results _ => True
  | .node .review, .review _ => True
  | .node .applyReviewFeedback, .none => True
  | .node .notifyHuman, .none => True
  | .node .synthesize, .synthesis _ => True
  | .node .deliver, .memory _ => True
  | .node .rejectTask, .none => True
  | .node .humanEscalation, .decision _ => True
  | .node .applyHumanDecision, .none => True
  | _, _ => False

/-! ### The tests before them -/

theorem isDoneAt_eq (completed : Dict String SubtaskResult) (dep : String) :
    isDoneAt completed dep = .ok (isDone completed dep) := by
  unfold isDoneAt isDone
  cases completed.get? dep with
  | none => rfl
  | some result => rfl

theorem allM_isDoneAt (completed : Dict String SubtaskResult) (deps : List String) :
    deps.allM (isDoneAt completed) = .ok (deps.all (isDone completed)) := by
  induction deps with
  | nil => rfl
  | cons dep deps ih =>
    rw [List.allM, isDoneAt_eq, List.all_cons]
    cases isDone completed dep with
    | false => rfl
    | true => exact ih

theorem scanSubtaskAt_eq (cfg : Settings) (completed : Dict String SubtaskResult) (retryCounts : Dict String Nat)
    (acc : Scan) (e : String × SubTask) :
    scanSubtaskAt cfg completed retryCounts acc e = .ok (scanSubtask cfg completed retryCounts acc e) := by
  unfold scanSubtaskAt scanSubtask
  rw [allM_isDoneAt]
  cases completed.get? e.1 with
  | none => rfl
  | some result =>
    simp only
    split
    · rfl
    · split <;> rfl

theorem foldlM_scanSubtaskAt (cfg : Settings) (completed : Dict String SubtaskResult) (retryCounts : Dict String Nat)
    (items : List (String × SubTask)) (acc : Scan) :
    items.foldlM (scanSubtaskAt cfg completed retryCounts) acc =
      .ok (items.foldl (scanSubtask cfg completed retryCounts) acc) := by
  induction items generalizing acc with
  | nil => rfl
  | cons e items ih =>
    rw [List.foldlM_cons, scanSubtaskAt_eq, List.foldl_cons]
    exact ih _

/-- The test before `completed[dep]` is enough. -/
theorem decideNextBatchAt_eq (cfg : Settings) (s : OrchestratorState) :
    decideNextBatchAt cfg s = decideNextBatch cfg s := by
  unfold decideNextBatchAt decideNextBatch
  cases s.plan with
  | none => rfl
  | some plan =>
    simp only [require, bind, Except.bind, foldlM_scanSubtaskAt]
    rfl

theorem runSpecialistAt_eq {specialists : Dict SpecialistType α}
    (hall : ∀ specialist, ∃ agent, specialists.get? specialist = some agent) (result : SubtaskResult) (p : SendPayload) :
    runSpecialistAt specialists result p = runSpecialist result p := by
  unfold runSpecialistAt
  split
  · rename_i hfind
    unfold runSpecialist
    rw [hfind]
  · rename_i subtask hfind
    obtain ⟨agent, hagent⟩ := hall subtask.specialist
    rw [hagent]
    rfl

theorem select?_eq {β : Type} {test : β → Except RunError Bool} {p : β → Bool} (h : ∀ b, test b = .ok (p b))
    (l : List β) : select? test l = .ok (l.filter p) := by
  induction l with
  | nil => rfl
  | cons b l ih =>
    unfold select?
    rw [h, ih, List.filter_cons]
    rfl

/-- The test before `completed[sid]` is enough. -/
theorem stuckIdsAt_eq (cfg : Settings) (s : OrchestratorState) : stuckIdsAt cfg s = .ok (stuckIds cfg s) := by
  unfold stuckIdsAt stuckIds
  rw [select?_eq fun e => ?_]
  · rfl
  · unfold isStuckAt
    cases s.completed.get? e.1 with
    | none =>
      rw [if_neg (by simp), Bool.and_false]
      rfl
    | some result =>
      by_cases hcount : cfg.maxSpecialistRetries ≤ (e.2 : Int)
      · rw [if_pos ⟨hcount, rfl⟩, decide_eq_true hcount]
        rfl
      · rw [if_neg (fun h => hcount h.1), decide_eq_false hcount]
        rfl

theorem escalateAt_eq (cfg : Settings) (s : OrchestratorState) : escalateAt cfg s = escalate cfg s := by
  have hclassify : classifyAt cfg s = classify cfg s := by
    unfold classifyAt
    split
    · rfl
    · rename_i hnot
      split
      · rfl
      · rename_i hreview
        unfold classify
        rw [if_neg hnot, hreview, stuckIdsAt_eq]
        rfl
  unfold escalateAt escalate
  rw [hclassify]

theorem runBatchAt_eq {specialists : Dict SpecialistType α}
    (hall : ∀ specialist, ∃ agent, specialists.get? specialist = some agent) (result : String → SubtaskResult)
    (batch : List SendPayload) : runBatchAt specialists result batch = runBatch result batch := by
  unfold runBatchAt runBatch
  simp only [runSpecialistAt_eq hall]

/-! ### Runs -/

def Next.isPlanTask : Next → Bool
  | .node .planTask => true
  | _ => false

/-- The node reads `state["completed"]`. -/
def Next.readsCompleted : Next → Bool
  | .node .review => true
  | .node .synthesize => true
  | _ => false

/-- Where the specialists are registered and `completed` is there, the step with its lookups is the step. -/
theorem lookupStep_eq {cfg : Settings} {specialists : Dict SpecialistType α}
    (hall : ∀ specialist, ∃ agent, specialists.get? specialist = some agent) {c : LookupConfig}
    (hcompleted : c.config.next.readsCompleted = true → c.hasCompleted = true) (r : Reply) :
    lookupStep cfg specialists c r =
      (step cfg c.config r).map fun out => (out.1, ⟨out.2, c.config.next.isPlanTask || c.hasCompleted⟩) := by
  obtain ⟨⟨s, next⟩, hasCompleted⟩ := c
  cases next with
  | finish => cases r <;> rfl
  | send batch =>
    cases r with
    | results result =>
      simp only [lookupStep, step, runBatchAt_eq hall]
      cases runBatch result batch <;> rfl
    | _ => rfl
  | node n =>
    cases n with
    | intake => cases r <;> rfl
    | planTask =>
      cases r with
      | plan plan =>
        simp only [lookupStep, step]
        cases routeAfterPlan cfg (s.apply (planTask plan)) <;> rfl
      | _ => rfl
    | routeBatch =>
      cases r with
      | none =>
        simp only [lookupStep, step, decideNextBatchAt_eq]
        cases decideNextBatch cfg s <;> rfl
      | _ => rfl
    | review =>
      cases r with
      | review result =>
        obtain rfl : hasCompleted = true := hcompleted rfl
        simp only [lookupStep, step, LookupConfig.completed, if_true]
        cases routeAfterReview cfg (s.apply (review result s)) <;> rfl
      | _ => rfl
    | applyReviewFeedback =>
      cases r with
      | none =>
        simp only [lookupStep, step]
        cases applyReviewFeedback s <;> rfl
      | _ => rfl
    | notifyHuman =>
      cases r with
      | none =>
        simp only [lookupStep, step]
        cases notifyHuman cfg s <;> rfl
      | _ => rfl
    | synthesize =>
      cases r with
      | synthesis text =>
        obtain rfl : hasCompleted = true := hcompleted rfl
        rfl
      | _ => rfl
    | deliver =>
      cases r with
      | memory memory =>
        simp only [lookupStep, step]
        cases deliver memory s <;> rfl
      | _ => rfl
    | rejectTask => cases r <;> rfl
    | humanEscalation =>
      cases r with
      | decision decision =>
        simp only [lookupStep, step, escalateAt_eq, humanEscalation]
        cases escalate cfg s <;> rfl
      | _ => rfl
    | applyHumanDecision =>
      cases r with
      | none =>
        simp only [lookupStep, step]
        cases s.humanDecision with
        | none => rfl
        | some decision =>
          cases s.escalationSource with
          | none => rfl
          | some source =>
            cases applyHumanDecision s with
            | error e => rfl
            | ok u => simp only [require, bind, Except.bind]; cases routeAfterDecision (s.apply u) <;> rfl
      | _ => rfl

theorem exists_routeAfterReview {cfg : Settings} {s : OrchestratorState} {result : ReviewResult}
    (h : s.review = some result) : ∃ n, routeAfterReview cfg s = .ok n := by
  unfold routeAfterReview
  rw [h]
  simp only [require, bind, Except.bind]
  split
  · exact ⟨_, rfl⟩
  · split
    · exact ⟨_, rfl⟩
    · split <;> exact ⟨_, rfl⟩

/-- Under the invariant a step succeeds on every reply that it can get. -/
theorem exists_step_of_fits {cfg : Settings} {s : OrchestratorState} {next : Next} (h : At cfg s next) {r : Reply}
    (hr : Fits next r) : ∃ out, step cfg ⟨s, next⟩ r = .ok out := by
  cases h with
  | intake _ =>
    cases r with
    | intake uuid memories => exact ⟨_, rfl⟩
    | _ => exact hr.elim
  | planTask _ =>
    cases r with
    | plan plan => exact ⟨_, rfl⟩
    | _ => exact hr.elim
  | routeBatch hs =>
    cases r with
    | none =>
      obtain ⟨n, hn, -⟩ := @decideNextBatch_cases cfg _ s hs.plan_eq hs.mem_planIds
      exact ⟨(.routeBatch, ⟨s, n⟩), by simp only [step, hn]; rfl⟩
    | _ => exact hr.elim
  | send hs _ _ hb =>
    cases r with
    | results result =>
      obtain ⟨branches, hbranches⟩ := exists_runBatch s result fun sid hsid => (mem_scan_ready.1 hsid).1
      rw [← hb] at hbranches
      exact ⟨_, by simp only [step, hbranches]; rfl⟩
    | _ => exact hr.elim
  | review _ _ =>
    cases r with
    | review result =>
      obtain ⟨n, hn⟩ := @exists_routeAfterReview cfg (s.apply (review result s)) result rfl
      exact ⟨_, by simp only [step, hn]; rfl⟩
    | _ => exact hr.elim
  | applyReviewFeedback _ hreview =>
    cases r with
    | none => exact ⟨_, by simp only [step, applyReviewFeedback, hreview]; rfl⟩
    | _ => exact hr.elim
  | notifyHuman _ hreview _ =>
    cases r with
    | none => exact ⟨_, by simp only [step, notifyHuman, hreview]; rfl⟩
    | _ => exact hr.elim
  | synthesize _ =>
    cases r with
    | synthesis text => exact ⟨_, rfl⟩
    | _ => exact hr.elim
  | deliver hs =>
    cases r with
    | memory memory =>
      cases memory with
      | none => exact ⟨_, rfl⟩
      | some memory => exact ⟨_, by simp only [step, deliver, hs.plan_eq]; rfl⟩
    | _ => exact hr.elim
  | rejectTask _ =>
    cases r with
    | none => exact ⟨_, rfl⟩
    | _ => exact hr.elim
  | humanEscalation hs _ =>
    cases r with
    | decision decision =>
      obtain ⟨escalation, source, he⟩ := @exists_escalate cfg s _ hs.plan_eq
      exact ⟨_, by simp only [step, humanEscalation, he]; rfl⟩
    | _ => exact hr.elim
  | @applyHumanDecision plan hs _ source decision escalation hp =>
    cases r with
    | none =>
      obtain ⟨u, n, hu, hn⟩ := exists_applied hs hp
      refine ⟨(.applyHumanDecision source decision u.completed, ⟨s.apply u, n⟩), ?_⟩
      simp only [step, require, hp.decision_eq, hp.source_eq, hu]
      simp only [bind, Except.bind, hn]
      rfl
    | _ => exact hr.elim
  | finish => exact hr.elim

/-- What holds in every run: the invariant of the graph, and `completed` is there unless there is no plan yet. -/
structure Reached (cfg : Settings) (c : LookupConfig) : Prop where
  known : At cfg c.config.state c.config.next
  completed : c.hasCompleted = true ∨ c.config.next = .node .intake ∨ c.config.next = .node .planTask

theorem Reached.readsCompleted {cfg : Settings} {c : LookupConfig} (h : Reached cfg c)
    (hreads : c.config.next.readsCompleted = true) : c.hasCompleted = true := by
  rcases h.completed with hcompleted | hnext | hnext
  · exact hcompleted
  · rw [hnext] at hreads
    exact absurd hreads (by decide)
  · rw [hnext] at hreads
    exact absurd hreads (by decide)

theorem Reached.step {cfg : Settings} {specialists : Dict SpecialistType α}
    (hall : ∀ specialist, ∃ agent, specialists.get? specialist = some agent) {c c' : LookupConfig} {e : Event}
    (h : Reached cfg c) (hs : LookupStep cfg specialists c e c') : Reached cfg c' := by
  obtain ⟨r, hr⟩ := hs
  rw [lookupStep_eq hall h.readsCompleted] at hr
  cases hstep : AgentOrchestrator.step cfg c.config r with
  | error error =>
    rw [hstep] at hr
    exact absurd hr (by simp [Except.map])
  | ok out =>
    obtain ⟨event, config⟩ := out
    rw [hstep] at hr
    obtain ⟨rfl, rfl⟩ := Prod.mk.inj (Except.ok.inj hr)
    have hfires := fires_of_step hstep
    refine ⟨h.known.step hfires, ?_⟩
    rcases h.completed with hcompleted | hnext | hnext
    · exact Or.inl (by simp [hcompleted])
    · -- the first node does not return `completed`, the second one does
      obtain ⟨⟨s, next⟩, hasCompleted⟩ := c
      obtain rfl : next = .node .intake := hnext
      cases hfires with
      | intake => exact Or.inr (Or.inr rfl)
    · exact Or.inl (by rw [hnext]; rfl)

/-- No lookup fails: in every run from a fresh state, with a specialist for every type, the step succeeds on every reply
that what runs next can get. -/
theorem lookups_succeed {cfg : Settings} {specialists : Dict SpecialistType α}
    (hall : ∀ specialist, ∃ agent, specialists.get? specialist = some agent) {s : OrchestratorState} (h0 : Fresh s)
    {tr : List Event} {c : LookupConfig} (h : Exec (LookupStep cfg specialists) ⟨start s, false⟩ tr c) {r : Reply}
    (hr : Fits c.config.next r) : ∃ e c', lookupStep cfg specialists c r = .ok (e, c') := by
  have hreached : Reached cfg c :=
    h.stateInvariant (Reached cfg) ⟨at_start h0, Or.inr (Or.inl rfl)⟩ fun _ _ _ hp hs => hp.step hall hs
  obtain ⟨out, hout⟩ := exists_step_of_fits hreached.known hr
  refine ⟨out.1, ⟨out.2, c.config.next.isPlanTask || c.hasCompleted⟩, ?_⟩
  rw [lookupStep_eq hall hreached.readsCompleted, hout]
  rfl

section Sample

/-- One specialist for each type, here its model. -/
def sampleSpecialists : Dict SpecialistType String :=
  Dict.ofKeys [.research, .dataAnalysis, .writing, .codeExecution] fun _ => "claude-sonnet"

theorem sampleSpecialists_all (specialist : SpecialistType) :
    ∃ agent, sampleSpecialists.get? specialist = some agent := by
  unfold sampleSpecialists
  rw [Dict.get?_ofKeys]
  cases specialist <;> exact ⟨_, rfl⟩

/-- A plan with an unknown dependency waits for a human, and the human can take it over. -/
theorem lookups_succeed_sample : ∃ tr c,
    Exec (LookupStep Settings.default sampleSpecialists) ⟨start sampleStart, false⟩ tr c ∧
      c.config.next = .node .humanEscalation ∧
      ∃ e c', lookupStep Settings.default sampleSpecialists c (.decision { action := .takeOver }) = .ok (e, c') := by
  have hscript : scriptEnds (lookupStep Settings.default sampleSpecialists) ⟨start sampleStart, false⟩
      [.intake "t" none, .plan (samplePlan [sampleSubtask "a" ["z"]]), .none]
      (fun _ c => c.config.next = .node .humanEscalation) = true := by decide +kernel
  obtain ⟨tr, c, h, hends⟩ := exec_of_scriptEnds hscript
  have hnext : c.config.next = .node .humanEscalation := by simpa using hends
  exact ⟨tr, c, h, hnext, lookups_succeed sampleSpecialists_all fresh_sampleStart h (by rw [hnext]; trivial)⟩

end Sample

end AgentOrchestrator
