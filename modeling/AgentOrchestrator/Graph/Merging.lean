import AgentOrchestrator.Agents.Script
import AgentOrchestrator.Graph.Projection
import AgentOrchestrator.Lib.Patch

/-!
# Merging the branches of a batch

What a branch writes into `completed` and into `retry_counts` is a patch of the channel, under the id of its own subtask
(`Matches.writesCompleted`, `Matches.writesRetryCounts`).  A batch has no id twice, so the patches of its branches are
apart, and the channels are the same in whatever order the branches are merged (`merged_in_any_order`).
-/

namespace AgentOrchestrator

open SpecialistAgent (Executes)

variable {app : App}

/-! ### Merged channels -/

/-- A channel that is merged with `mergeOptionalDict`, and what an update writes into it. -/
structure MergedChannel (ν : Type) where
  get : OrchestratorState → Dict String ν
  written : Update → Dict String (Option ν)
  get_apply : ∀ s u, get (s.apply u) = mergeOptionalDict (get s) (written u)

namespace MergedChannel

def completed : MergedChannel SubtaskResult where
  get s := s.completed
  written u := u.completed
  get_apply _ _ := rfl

def retryCounts : MergedChannel Nat where
  get s := s.retryCounts
  written u := u.retryCounts
  get_apply _ _ := rfl

variable {ν : Type} (ch : MergedChannel ν)

/-- What a branch writes into the channel. -/
def patch (branch : Branch) : Patch String ν := (ch.written branch.update).get?

/-- The channel after updates is what their patches make of it. -/
theorem get?_applyAll (s : OrchestratorState) (branches : List Branch) :
    (ch.get (applyAll s (branches.map (·.update)))).get? =
      (branches.map ch.patch).foldl Patch.apply (ch.get s).get? := by
  unfold applyAll
  induction branches generalizing s with
  | nil => rfl
  | cons branch branches ih =>
    have hfirst : (ch.get (s.apply branch.update)).get? = Patch.apply (ch.get s).get? (ch.patch branch) := by
      funext sid
      rw [ch.get_apply, get?_mergeOptionalDict]
      rfl
    rw [List.map_cons, List.foldl_cons, ih, hfirst, List.map_cons, List.foldl_cons]

/-- The branch writes `v` under the id of its subtask, and nothing else. -/
def Writes (branch : Branch) (v : ν) : Prop :=
  ∀ sid, ch.patch branch sid = if sid = branch.run.subtask.id then some (some v) else none

variable {ch} {branches order : List Branch} {branch : Branch} {v : ν} {s : OrchestratorState}

theorem Writes.own (h : ch.Writes branch v) : ch.patch branch branch.run.subtask.id = some (some v) :=
  (h _).trans (if_pos rfl)

theorem Writes.other (h : ch.Writes branch v) {sid : String} (hne : sid ≠ branch.run.subtask.id) :
    ch.patch branch sid = none :=
  (h sid).trans (if_neg hne)

/-- Each branch writes under the id of its own subtask, and no two have the same. -/
structure WriteApart (ch : MergedChannel ν) (branches : List Branch) : Prop where
  ids : (branches.map (·.run.subtask.id)).Nodup
  writes : ∀ branch ∈ branches, ∃ v, ch.Writes branch v

namespace WriteApart

theorem pairwise (h : ch.WriteApart branches) : (branches.map ch.patch).Pairwise Patch.Apart := by
  rw [List.pairwise_map]
  refine (List.pairwise_map.1 h.ids).imp_of_mem fun {branch branch'} hb hb' hne sid => ?_
  obtain ⟨v, hv⟩ := h.writes branch hb
  obtain ⟨v', hv'⟩ := h.writes branch' hb'
  by_cases hsid : sid = branch.run.subtask.id
  · exact Or.inr (hv'.other (hsid ▸ hne))
  · exact Or.inl (hv.other hsid)

theorem get?_own (h : ch.WriteApart branches) (hb : branch ∈ branches) (hv : ch.Writes branch v) :
    (ch.get (applyAll s (branches.map (·.update)))).get? branch.run.subtask.id = some v := by
  rw [get?_applyAll]
  exact Patch.foldl_apply_of_mem h.pairwise (List.mem_map_of_mem hb) hv.own

theorem get?_other (h : ch.WriteApart branches) {sid : String} (hsid : sid ∉ branches.map (·.run.subtask.id)) :
    (ch.get (applyAll s (branches.map (·.update)))).get? sid = (ch.get s).get? sid := by
  rw [get?_applyAll]
  refine Patch.foldl_apply_of_none fun p hp => ?_
  obtain ⟨branch, hb, rfl⟩ := List.mem_map.1 hp
  obtain ⟨v, hv⟩ := h.writes branch hb
  exact hv.other fun heq => hsid (List.mem_map.2 ⟨branch, hb, heq.symm⟩)

theorem get?_perm (h : ch.WriteApart branches) (horder : order.Perm branches) (sid : String) :
    (ch.get (applyAll s (order.map (·.update)))).get? sid =
      (ch.get (applyAll s (branches.map (·.update)))).get? sid := by
  rw [get?_applyAll, get?_applyAll, Patch.foldl_apply_perm h.pairwise (horder.symm.map _)]

end WriteApart

end MergedChannel

/-! ### What the branches of a batch write -/

namespace Matches

variable {p : SendPayload} {branch : Branch}

/-- What `run_specialist` returns. -/
theorem run_update (h : Matches p branch) :
    branch.run.subtask.id = p.subtaskId ∧ branch.update =
      { completed := Dict.ofKeys [p.subtaskId] fun _ => some branch.run.result
        retryCounts := Dict.ofKeys [p.subtaskId] fun _ =>
          some ((p.retryCounts.get? p.subtaskId).getD 0 + if branch.run.result.success then 0 else 1) } := by
  obtain ⟨result, hrun⟩ := h.run
  unfold runSpecialist at hrun
  split at hrun
  · exact absurd hrun (by simp)
  · rename_i subtask hfind
    obtain ⟨hspecialist, hupdate⟩ := Prod.mk.inj (Except.ok.inj hrun)
    have hid : subtask.id = p.subtaskId := by simpa using List.find?_some hfind
    rw [← hspecialist, ← hupdate]
    exact ⟨hid, rfl⟩

theorem writesCompleted (h : Matches p branch) : MergedChannel.completed.Writes branch branch.run.result := by
  intro sid
  obtain ⟨hid, hupdate⟩ := h.run_update
  unfold MergedChannel.patch
  rw [hupdate, hid]
  simp [MergedChannel.completed]

theorem writesRetryCounts (h : Matches p branch) : MergedChannel.retryCounts.Writes branch
    ((p.retryCounts.get? branch.run.subtask.id).getD 0 + if branch.run.result.success then 0 else 1) := by
  intro sid
  obtain ⟨hid, hupdate⟩ := h.run_update
  unfold MergedChannel.patch
  rw [hupdate, hid]
  simp [MergedChannel.retryCounts]

end Matches

section

variable {batch : List SendPayload} {branches : List Branch}

theorem ids_of_matches (h : List.Forall₂ Matches batch branches) :
    branches.map (·.run.subtask.id) = batch.map (·.subtaskId) := by
  induction h with
  | nil => rfl
  | cons hp _ ih => rw [List.map_cons, List.map_cons, hp.run_update.1, ih]

theorem exists_matches (h : List.Forall₂ Matches batch branches) : ∀ branch ∈ branches, ∃ p, Matches p branch := by
  induction h with
  | nil => exact fun branch hb => absurd hb List.not_mem_nil
  | @cons p branch batch branches hp _ ih => exact List.forall_mem_cons.2 ⟨⟨p, hp⟩, ih⟩

/-- The branches of a batch without repeated ids write apart. -/
theorem writeApart_completed (hids : (batch.map (·.subtaskId)).Nodup) (h : List.Forall₂ Matches batch branches) :
    MergedChannel.completed.WriteApart branches where
  ids := ids_of_matches h ▸ hids
  writes branch hb := by
    obtain ⟨p, hp⟩ := exists_matches h branch hb
    exact ⟨_, hp.writesCompleted⟩

theorem writeApart_retryCounts (hids : (batch.map (·.subtaskId)).Nodup) (h : List.Forall₂ Matches batch branches) :
    MergedChannel.retryCounts.WriteApart branches where
  ids := ids_of_matches h ▸ hids
  writes branch hb := by
    obtain ⟨p, hp⟩ := exists_matches h branch hb
    exact ⟨_, hp.writesRetryCounts⟩

end

/-- What the branches of a batch return matches it, in whatever order they have issued their commands. -/
theorem matches_of_exec {c : Traced} {batch : List SendPayload} {moves : List BranchMove}
    {pool : Pool SpecialistAgent.Command SpecialistAgent.Response SpecialistAgent.Workshop (Except NodeError Branch)}
    (h : Exec (Pool.Step Executes) (dispatch app c batch).pool moves pool) {branches : List Branch}
    (hr : pool.progs = branches.map fun branch => .ret (.ok branch)) : List.Forall₂ Matches batch branches := by
  let sent : Traced := { c with config := ⟨c.config.state, .send batch⟩ }
  have hsound : BatchSound sent ⟨[], pool⟩ batch := by
    refine h.stateInvariant (fun pool => BatchSound sent ⟨[], pool⟩ batch) (batchSound_dispatch (c := sent) rfl) ?_
    exact fun _ _ _ hpool hm => hpool.move hm []
  exact hsound.gathered hr

/-! ### The merge of a batch -/

/-- The branches of a batch have been merged without loss: every id of the batch has its own branch's result and its
previous retry count, plus one if the branch has failed, every other id is as before, and there is one event more for
each branch. -/
structure BatchMerged (c : Traced) (batch : List SendPayload) (branches : List Branch) (c' : Traced) : Prop where
  own : List.Forall₂
    (fun p branch => branch.run.subtask.id = p.subtaskId ∧
      c'.config.state.completed.get? p.subtaskId = some branch.run.result ∧
      c'.config.state.retryCounts.get? p.subtaskId =
        some ((c.config.state.retryCounts.get? p.subtaskId).getD 0 + if branch.run.result.success then 0 else 1))
    batch branches
  others : ∀ sid, sid ∉ batch.map (·.subtaskId) →
    c'.config.state.completed.get? sid = c.config.state.completed.get? sid ∧
    c'.config.state.retryCounts.get? sid = c.config.state.retryCounts.get? sid
  events : ∃ new, c'.events = c.events ++ new ∧ new.Perm (branches.map (·.event))

/-- The same entries in both maps, and the same events but for their order. -/
structure SameUpToOrder (c c' : Traced) : Prop where
  completed : ∀ sid, c.config.state.completed.get? sid = c'.config.state.completed.get? sid
  retryCounts : ∀ sid, c.config.state.retryCounts.get? sid = c'.config.state.retryCounts.get? sid
  events : c.events.Perm c'.events

section

variable {cfg : Settings} {c : Traced} {plan : ExecutionPlan} {batch : List SendPayload} {branches order : List Branch}

theorem merged_of_matches (b : Batch)
    (hbatch : batch =
      (scan cfg plan c.config.state.completed c.config.state.retryCounts).ready.map (sendPayload plan c.config.state))
    (h : List.Forall₂ Matches batch branches) (horder : order.Perm branches) :
    BatchMerged c batch branches (gather c b order) ∧ SameUpToOrder (gather c b order) (gather c b branches) := by
  have hids : (batch.map (·.subtaskId)).Nodup := hbatch ▸ nodup_ids_of_ready cfg plan c.config.state
  have hcounts : ∀ p ∈ batch, p.retryCounts = c.config.state.retryCounts := by
    rw [hbatch]
    intro p hp
    obtain ⟨sid, -, rfl⟩ := List.mem_map.1 hp
    rfl
  have hcompleted := writeApart_completed hids h
  have hretryCounts := writeApart_retryCounts hids h
  have hsame : SameUpToOrder (gather c b order) (gather c b branches) :=
    { completed := hcompleted.get?_perm horder
      retryCounts := hretryCounts.get?_perm horder
      events := (horder.map _).append_left c.events }
  refine ⟨⟨?_, fun sid hsid => ?_, _, rfl, horder.map _⟩, hsame⟩
  · refine List.forall₂_iff_get.2 ⟨h.length_eq, fun i hi hi' => ?_⟩
    have hp := h.get hi hi'
    have hb := List.get_mem branches ⟨i, hi'⟩
    rw [hsame.completed, hsame.retryCounts, ← hcounts _ (List.get_mem batch ⟨i, hi⟩), ← hp.run_update.1]
    exact ⟨rfl, hcompleted.get?_own hb hp.writesCompleted, hretryCounts.get?_own hb hp.writesRetryCounts⟩
  · rw [← ids_of_matches h] at hsid
    rw [hsame.completed, hsame.retryCounts]
    exact ⟨hcompleted.get?_other hsid, hretryCounts.get?_other hsid⟩

end

/-- The branches of a batch that `decide_next_batch` dispatches are merged without loss, and alike in any order. -/
theorem merged_in_any_order {c : Traced} {batch : List SendPayload}
    (hdispatch : decideNextBatch app.settings c.config.state = .ok (.send batch)) {moves : List BranchMove}
    {pool : Pool SpecialistAgent.Command SpecialistAgent.Response SpecialistAgent.Workshop (Except NodeError Branch)}
    (hruns : Exec (Pool.Step Executes) (dispatch app c batch).pool moves pool) {branches : List Branch}
    (hreturned : pool.progs = branches.map fun branch => .ret (.ok branch)) {order : List Branch}
    (horder : order.Perm branches) :
    BatchMerged c batch branches (gather c ⟨moves, pool⟩ order) ∧
      SameUpToOrder (gather c ⟨moves, pool⟩ order) (gather c ⟨moves, pool⟩ branches) := by
  obtain ⟨plan, -, hready⟩ := eq_ready_of_send hdispatch
  exact merged_of_matches _ hready (matches_of_exec hruns hreturned) horder

/-- The second subtask of this plan has failed once, and the third waits for the others. -/
private def mergingPlan : ExecutionPlan := samplePlan
  [sampleSubtask "a" [], { sampleSubtask "b" [] with specialist := .writing }, sampleSubtask "c" ["a", "b"]]

private def mergingState : OrchestratorState where
  task := "Report"
  plan := some mergingPlan
  completed := Dict.ofList [("b", sampleResult false "b")]
  retryCounts := Dict.ofList [("b", 1)]

private def mergingStart : Traced where
  config := ⟨mergingState, .node .routeBatch⟩
  supervisor := { modelName := "gpt-5", systemPrompt := "Plan." }
  reviewer := { modelName := "gpt-5", systemPrompt := "Review." }
  extractor := none
  workshop := ⟨fun _ => {}, fun _ => []⟩

private def mergingBatch : List SendPayload := ["a", "b"].map (sendPayload mergingPlan mergingState)

private def mergingApp : App where
  settings := Settings.default
  useCelery := false
  specialistModels _ := "gpt-5"
  specialistTools _ := []
  dumpPlan plan := plan.goal
  dumpReview result := result.feedback
  dumpMemory memory := memory.approachSummary

private def mergingScript : SpecialistAgent.Script where
  bound := .ok ()
  replies _ := .ok ⟨⟨"", none⟩, []⟩
  final := .ok (⟨"Facts.", none⟩, some ⟨"Facts.", ⟨1 / 2, half_isScore⟩⟩)
  used _ := .error "Unknown tool"

/-- The model of the writing specialist has no structured answer. -/
private def mergingAnswer (cmd : SpecialistAgent.Command) (w : SpecialistAgent.Workshop) :
    SpecialistAgent.Response cmd × SpecialistAgent.Workshop :=
  match cmd with
  | .structured (.inProcess .writing) _ => (Except.error ⟨"Overloaded"⟩, w)
  | cmd =>
    let answered := mergingScript.answer ⟨fun _ => 0, fun _ => 0⟩ cmd { workshop := w }
    (answered.1, answered.2.workshop)

private theorem executes_mergingAnswer (cmd : SpecialistAgent.Command) (w : SpecialistAgent.Workshop) :
    Executes cmd w (mergingAnswer cmd w).1 (mergingAnswer cmd w).2 := by
  unfold mergingAnswer
  split
  · rfl
  · exact SpecialistAgent.executes_answer _ _ _ { workshop := w }

/-- The successes of the branches, if all have returned. -/
private def successes (pool : Pool SpecialistAgent.Command SpecialistAgent.Response SpecialistAgent.Workshop
    (Except NodeError Branch)) : Option (List Bool) :=
  (returnedBranches pool.progs).map fun branches => branches.map (·.run.result.success)

/-- Two branches that take turns, one of which fails, are merged in reverse. -/
theorem merged_in_any_order_sample : ∃ c batch branches b, branches.map (·.run.result.success) = [true, false] ∧
    batch.map (·.subtaskId) = ["a", "b"] ∧ BatchMerged c batch branches (gather c b branches.reverse) ∧
    SameUpToOrder (gather c b branches.reverse) (gather c b branches) := by
  have hscript : scriptEnds (Pool.advance mergingAnswer) (dispatch mergingApp mergingStart mergingBatch).pool
      ((List.replicate 13 [0, 1]).flatten ++ [0, 0, 0]) (fun _ pool => successes pool = some [true, false]) = true := by
    decide +kernel
  obtain ⟨moves, pool, hruns, hp⟩ := exists_exec_of_scriptEnds (R := Pool.Step Executes)
    (fun _ _ _ _ hi => Pool.step_of_advance executes_mergingAnswer hi) hscript
  obtain ⟨branches, hreturned, hsuccess⟩ := Option.map_eq_some_iff.1 (of_decide_eq_true hp)
  have hdispatch : decideNextBatch mergingApp.settings mergingStart.config.state = .ok (.send mergingBatch) := rfl
  exact ⟨mergingStart, mergingBatch, branches, ⟨moves, pool⟩, hsuccess, rfl,
    merged_in_any_order hdispatch hruns (eq_of_returnedBranches hreturned) branches.reverse_perm⟩

/-- In a run from a fresh state every batch is merged without loss. -/
theorem TracedStep.merged {c c' c'' : Traced} {tr : List TraceLabel} {runs : List SpecialistRun} {s : OrchestratorState}
    (hstart : c.config = start s) (hfresh : Fresh s) (hbatch : c.batch = none) (h : Exec (TracedStep app) c tr c')
    (hs : TracedStep app c' (.gathered runs) c'') :
    ∃ batch branches, c'.config.next = .send batch ∧ runs = branches.map (·.run) ∧ BatchMerged c' batch branches c'' := by
  obtain ⟨hexec, hunder⟩ := exec_of_traced hstart hfresh hbatch h
  have hat := at_of_exec hfresh hexec
  cases hs with
  | @gather b branches hb hr =>
    obtain ⟨batch, hsound⟩ := hunder b hb
    refine ⟨batch, branches, hsound.next, rfl, ?_⟩
    rw [hsound.next] at hat
    cases hat with
    | @send plan _ _ _ _ hready =>
      exact (merged_of_matches b hready (hsound.gathered hr) (.refl branches)).1

end AgentOrchestrator
