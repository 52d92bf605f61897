import AgentOrchestrator.Graph.Invariant
import AgentOrchestrator.Graph.Trace

/-!
# Traced runs are runs of the graph

The branches of a batch return what the branches of the graph return, whatever comes of their commands
(`follows_branch`), so a batch that has been gathered is one step of the graph; the commands of the branches are none,
and the other steps are steps of the graph by their definition.
-/

namespace AgentOrchestrator

open SpecialistAgent (Command Response)

variable {app : App}

/-! ### What a branch returns -/

/-- The branch has run as that of the graph, on the result of some specialist. -/
structure Matches (p : SendPayload) (branch : Branch) : Prop where
  run : ∃ result, runSpecialist result p = .ok (branch.run, branch.update)
  node : branch.event.node = nodeName p.subtaskId
  agent : ∃ specialist : SpecialistType, branch.event.agent = specialist.value

/-- A branch that returns without an exception matches its payload. -/
def ReturnsMatching (p : SendPayload) (r : Except NodeError Branch) : Prop := ∀ branch, r = .ok branch → Matches p branch

theorem returnsMatching_error (p : SendPayload) (e : NodeError) : ReturnsMatching p (.error e) := by
  intro branch h
  exact absurd h (by simp)

/-- What `endBranch` puts into a branch. -/
structure BranchEnded (p : SendPayload) (via : ExecutedVia) (result : SubtaskResult) (prompt response : Option String)
    (usage : List UsageEntry) (branch : Branch) : Prop where
  run : runSpecialist result p = .ok (branch.run, branch.update)
  node : branch.event.node = nodeName p.subtaskId
  agent : ∃ specialist : SpecialistType, branch.event.agent = specialist.value
  attributes : branch.event.attributes = .runSpecialist p.subtaskId result.output result.error
    (p.subtaskFeedback.get? p.subtaskId).isSome result.toolCalls prompt response via
  usage_eq : branch.event.usage = usage

/-- `endBranch` asks for the time and returns, and what it returns without an exception has ended so. -/
theorem follows_endBranch {γ : Type} {P : Protocol Command Response γ} {post : γ → Except NodeError Branch → Prop} {g : γ}
    {p : SendPayload} {subtask : SubTask} {via : ExecutedVia} {start : ℚ} {result : SubtaskResult}
    {prompt response : Option String} {usage : List UsageEntry} (hnow : P.guarantee g .now)
    (hpost : ∀ ended r, (∀ branch, r = .ok branch → BranchEnded p via result prompt response usage branch) →
      post (P.next g .now ended) r) :
    (endBranch p subtask via start result prompt response usage).Follows P post g := by
  refine .perform hnow fun ended _ => hpost ended _ fun branch h => ?_
  cases hrun : runSpecialist result p with
  | error e =>
    rw [hrun] at h
    exact absurd h (by simp [Except.map, Except.mapError])
  | ok out =>
    rw [hrun] at h
    obtain rfl := Except.ok.inj h
    exact ⟨hrun, rfl, ⟨subtask.specialist, rfl⟩, rfl, rfl⟩

theorem BranchEnded.matches {p : SendPayload} {via : ExecutedVia} {result : SubtaskResult}
    {prompt response : Option String} {usage : List UsageEntry} {branch : Branch}
    (h : BranchEnded p via result prompt response usage branch) : Matches p branch :=
  ⟨⟨result, h.run⟩, h.node, h.agent⟩

theorem follows_branch (job : Nat) (p : SendPayload) :
    (branch app job p).Follows .free (fun _ => ReturnsMatching p) () := by
  refine .perform trivial fun start _ => ?_
  split
  · exact returnsMatching_error p _
  · rename_i subtask _
    dsimp only
    split
    · refine .bind (Prog.follows_free _) fun _ outcome _ => ?_
      refine .perform trivial fun wait _ => ?_
      split
      · exact returnsMatching_error p _
      · exact follows_endBranch trivial fun _ r hr branch h => (hr branch h).matches
    · refine .bind (Prog.follows_free _) fun _ result _ => ?_
      refine .perform trivial fun prompt _ => .perform trivial fun response _ => ?_
      refine .bind (Prog.follows_free _) fun _ out _ => ?_
      split
      · exact returnsMatching_error p _
      · exact follows_endBranch trivial fun _ r hr branch h => (hr branch h).matches

/-! ### Batches -/

/-- A batch under way is the one the graph has dispatched, and its branches will match it. -/
structure BatchSound (c : Traced) (b : Batch) (batch : List SendPayload) : Prop where
  next : c.config.next = .send batch
  length : b.pool.progs.length = batch.length
  follow : Pool.Follow (fun _ => .free) (fun i _ r => ∀ p, batch[i]? = some p → ReturnsMatching p r) (fun _ => ()) b.pool

theorem batchSound_dispatch {c : Traced} {batch : List SendPayload} (h : c.config.next = .send batch) :
    BatchSound c (dispatch app c batch) batch where
  next := h
  length := List.length_mapIdx
  follow := by
    refine Pool.follow_mapIdx fun i p hp => ?_
    refine (follows_branch i p).mono fun _ r hr p' hp' => ?_
    obtain rfl := Option.some.inj (hp.symm.trans hp')
    exact hr

theorem BatchSound.move {c : Traced} {b : Batch} {batch : List SendPayload} (h : BatchSound c b batch) {m : BranchMove}
    {pool : Pool Command Response SpecialistAgent.Workshop (Except NodeError Branch)}
    (hm : Pool.Step SpecialistAgent.Executes b.pool m pool) (moves : List BranchMove) :
    BatchSound c { moves := moves, pool := pool } batch where
  next := h.next
  length := hm.length_eq.trans h.length
  follow := h.follow.step_free hm

/-- All branches of a batch that is over match it. -/
theorem BatchSound.gathered {c : Traced} {b : Batch} {batch : List SendPayload} (h : BatchSound c b batch)
    {branches : List Branch} (hr : b.pool.progs = branches.map fun branch => .ret (.ok branch)) :
    List.Forall₂ Matches batch branches := by
  have hlength : batch.length = branches.length := by
    rw [← h.length, hr, List.length_map]
  refine List.forall₂_iff_get.2 ⟨hlength, fun i hi hi' => ?_⟩
  have hprog : b.pool.progs[i]? = some (.ret (.ok branches[i])) := by
    rw [hr, List.getElem?_map, List.getElem?_eq_getElem hi']
    rfl
  exact h.follow.post hprog batch[i] (List.getElem?_eq_getElem hi) _ rfl

/-- Branches that match a batch are those of one run of it, if it has no id twice. -/
theorem exists_result {batch : List SendPayload} {branches : List Branch} (hn : (batch.map (·.subtaskId)).Nodup)
    (h : List.Forall₂ Matches batch branches) :
    ∃ result, runBatch result batch = .ok (branches.map fun branch => (branch.run, branch.update)) := by
  suffices hresult : ∃ result : String → SubtaskResult, List.Forall₂
      (fun p (branch : Branch) => runSpecialist (result p.subtaskId) p = .ok (branch.run, branch.update)) batch branches by
    obtain ⟨result, hresult⟩ := hresult
    refine ⟨result, Fallible.mapM_eq_ok_iff.2 ?_⟩
    rwa [List.forall₂_map_right_iff]
  induction h with
  | nil => exact ⟨sampleResult true, .nil⟩
  | @cons p branch batch branches hp _ ih =>
    rw [List.map_cons, List.nodup_cons] at hn
    obtain ⟨result, hresult⟩ := ih hn.2
    obtain ⟨r, hr⟩ := hp.run
    refine ⟨Function.update result p.subtaskId r, .cons ?_ ?_⟩
    · rw [Function.update_self]
      exact hr
    · have hother : ∀ q ∈ batch, q.subtaskId ≠ p.subtaskId := fun q hq heq =>
        hn.1 (List.mem_map.2 ⟨q, hq, heq⟩)
      refine ((List.forall₂_and_left _ _).2 ⟨hother, hresult⟩).imp fun q branch hq => ?_
      rw [Function.update_of_ne hq.1]
      exact hq.2

/-! ### Runs -/

/-- The step of the graph that a step of a traced run is, if any. -/
def TraceLabel.event : TraceLabel → Option Event
  | .node e _ => some e
  | .dispatched => none
  | .move _ => none
  | .gathered runs => some (.specialists runs)

/-- The events of the graph in a traced run. -/
def eventsOf (tr : List TraceLabel) : List Event := tr.filterMap TraceLabel.event

theorem eventsOf_snoc (tr : List TraceLabel) (l : TraceLabel) :
    eventsOf (tr ++ [l]) = eventsOf tr ++ l.event.toList := by
  unfold eventsOf
  rw [List.filterMap_append]
  cases h : l.event with
  | none => simp [h]
  | some e => simp [h]

/-- A batch under way is sound. -/
def Underway (c : Traced) : Prop := ∀ b, c.batch = some b → ∃ batch, BatchSound c b batch

theorem TracedStep.underway {c c' : Traced} {l : TraceLabel} (h : Underway c) (hs : TracedStep app c l c') :
    Underway c' := by
  intro b hb
  obtain ⟨hconfig, -, ⟨batch, -, hn, rfl⟩ | ⟨old, m, pool, -, hold, hm, rfl⟩⟩ := hs.batch_cases hb
  · have hsound : BatchSound c (AgentOrchestrator.dispatch app c batch) batch := batchSound_dispatch hn
    exact ⟨batch, hconfig ▸ hn, hsound.length, hsound.follow⟩
  · obtain ⟨batch, hbatch⟩ := h old hold
    have hsound := hbatch.move hm (old.moves ++ [m])
    exact ⟨batch, hconfig ▸ hsound.next, hsound.length, hsound.follow⟩

/-- A batch that has been gathered is one step of the graph. -/
theorem step_gather {c : Traced} {b : Batch} {batch : List SendPayload} {branches : List Branch}
    (hat : At app.settings c.config.state c.config.next) (h : BatchSound c b batch)
    (hr : b.pool.progs = branches.map fun branch => .ret (.ok branch)) :
    Step app.settings c.config (.specialists (branches.map (·.run))) (gather c b branches).config := by
  have hmatches := h.gathered hr
  obtain ⟨⟨s, next⟩, supervisor, reviewer, extractor, workshop, events, under⟩ := c
  obtain rfl : next = .send batch := h.next
  have hnodup : (batch.map (·.subtaskId)).Nodup := by
    cases hat with
    | @send plan hs hst hready _ hbatch =>
      rw [hbatch]
      exact nodup_ids_of_ready app.settings plan s
  obtain ⟨result, hresult⟩ := exists_result hnodup hmatches
  have hfires : Fires app.settings ⟨s, .send batch⟩ _ _ := .specialists result hresult
  have hstep := hfires.step
  simpa [gather, Function.comp_def] using hstep

/-! ### Events -/

/-- The decision with which a step has resumed the graph. -/
def TraceLabel.decision (l : TraceLabel) : Option HumanDecision := l.event.bind Event.decision

theorem nodeName_ne_escalation (subtaskId : String) : nodeName subtaskId ≠ "human_escalation" := by
  intro h
  have hchars : "run_specialist:".toList ++ subtaskId.toList = "human_escalation".toList := by
    rw [← String.toList_append]
    exact congrArg String.toList h
  have hfirst : some 'r' = some 'h' := congrArg List.head? hchars
  exact absurd hfirst (by decide)

theorem escalations_append (events new : List TraceEvent) :
    escalations (events ++ new) = escalations events ++ escalations new := by
  unfold escalations
  exact List.filter_append ..

/-- The branches of a batch are no escalations. -/
theorem escalations_gathered {batch : List SendPayload} {branches : List Branch}
    (h : List.Forall₂ Matches batch branches) : escalations (branches.map (·.event)) = [] := by
  unfold escalations
  induction h with
  | nil => rfl
  | @cons p branch batch branches hp _ ih =>
    have hnode : branch.event.node ≠ "human_escalation" := hp.node ▸ nodeName_ne_escalation p.subtaskId
    rw [List.map_cons, List.filter_cons_of_neg (by simpa using hnode), ih]

/-- The agents of all events: those of the nodes, and the specialists. -/
def agentNames : List String :=
  nodeAgents ++ [SpecialistType.research, .dataAnalysis, .writing, .codeExecution].map SpecialistType.value

theorem Matches.agent_mem {p : SendPayload} {branch : Branch} (h : Matches p branch) :
    branch.event.agent ∈ agentNames := by
  obtain ⟨specialist, hagent⟩ := h.agent
  refine hagent ▸ List.mem_append_right _ (List.mem_map_of_mem ?_)
  cases specialist <;> simp

theorem agents_gathered {batch : List SendPayload} {branches : List Branch} (h : List.Forall₂ Matches batch branches) :
    ∀ event ∈ branches.map (·.event), event.agent ∈ agentNames := by
  induction h with
  | nil => simp
  | cons hp _ ih =>
    rw [List.map_cons, List.forall_mem_cons]
    exact ⟨hp.agent_mem, ih⟩

/-- A step appends its events, with one of `human_escalation` exactly if it resumes the graph with a decision. -/
theorem TracedStep.events {c c' : Traced} {l : TraceLabel} (h : Underway c) (hs : TracedStep app c l c') :
    ∃ new, c'.events = c.events ++ new ∧ (escalations new).length = l.decision.toList.length ∧
      ∀ event ∈ new, event.agent ∈ agentNames := by
  cases hs with
  | node hb h =>
    obtain ⟨new, hnew⟩ := exists_executed h
    exact ⟨new, hnew.events, hnew.escalations, fun event he => List.mem_append_left _ (hnew.agents event he)⟩
  | dispatch hb hn => exact ⟨[], (List.append_nil _).symm, rfl, by simp⟩
  | move hb hm => exact ⟨[], (List.append_nil _).symm, rfl, by simp⟩
  | gather hb hr =>
    obtain ⟨batch, hsound⟩ := h _ hb
    have hmatches := hsound.gathered hr
    exact ⟨_, rfl, congrArg List.length (escalations_gathered hmatches), agents_gathered hmatches⟩

/-! ### The projection -/

/-- A traced run from a fresh state is, without its batches' commands, a run of the graph. -/
theorem exec_of_traced {c c' : Traced} {tr : List TraceLabel} {s : OrchestratorState} (hstart : c.config = start s)
    (hfresh : Fresh s) (hbatch : c.batch = none) (h : Exec (TracedStep app) c tr c') :
    Exec (Step app.settings) (start s) (eventsOf tr) c'.config ∧ Underway c' := by
  refine h.invariant (fun tr c => Exec (Step app.settings) (start s) (eventsOf tr) c.config ∧ Underway c) ⟨?_, ?_⟩ ?_
  · rw [hstart]
    exact .refl
  · intro b hb
    exact absurd (hb.symm.trans hbatch) (by simp)
  · intro tr t l u _ hinv hs
    obtain ⟨hexec, hunder⟩ := hinv
    refine ⟨?_, hs.underway hunder⟩
    rw [eventsOf_snoc]
    cases hs with
    | node hb h =>
      obtain ⟨new, hnew⟩ := exists_executed h
      exact hexec.snoc hnew.step
    | dispatch hb hn => rwa [TraceLabel.event, Option.toList_none, List.append_nil]
    | move hb hm => rwa [TraceLabel.event, Option.toList_none, List.append_nil]
    | gather hb hr =>
      obtain ⟨batch, hsound⟩ := hunder _ hb
      exact hexec.snoc (step_gather (at_of_exec hfresh hexec) hsound hr)

end AgentOrchestrator
